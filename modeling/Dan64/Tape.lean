/-
Dan64/Tape.lean

What `load` accepts.

`drive` is the decoder in the loop of `load`, without the memory: it stops at
the first call that fails and at the end of a frame (`loadLoop_eq_drive`).  A
stream that declares at least one byte of data ends in one of three ways
(`drive_cases`): it begins with a frame, or there is a first wrong byte, whose
stage the decoder names, or the stream is a proper prefix of a frame and the
decoder is waiting.  A frame with one byte changed has a wrong byte
(`drive_corrupted`).
-/
import Dan64.SharedMem

namespace Dan64

open Mealy Session

/-! ### The loop of `load` on the decoder -/

/-- What `load` passes to `load_data_write`, and the decoder it leaves. -/
def drive (dec : Decoder) : List Byte → List Byte × Decoder
  | [] => ([], dec)
  | byte :: audio =>
    let (o, dec) := decode dec byte
    if o.ret ≠ 0 then (o.written, dec)
    else if dec.control = C_END then (o.written, dec)
    else
      let (data, dec) := drive dec audio
      (o.written ++ data, dec)

theorem drive_cons (dec : Decoder) (byte : Byte) (audio : List Byte) :
    drive dec (byte :: audio) =
      if (decode dec byte).1.ret ≠ 0 then ((decode dec byte).1.written, (decode dec byte).2)
      else if (decode dec byte).2.control = C_END then
        ((decode dec byte).1.written, (decode dec byte).2)
      else ((decode dec byte).1.written ++ (drive (decode dec byte).2 audio).1,
        (drive (decode dec byte).2 audio).2) := rfl

/-- `load` writes what the decoder passes on, at consecutive addresses. -/
theorem loadLoop_eq_drive (s : Session × Word) (dec : Decoder) (audio : List Byte) :
    loadLoop s dec audio
      = (((drive dec audio).1.foldl loadDataWrite s).1, (drive dec audio).2) := by
  induction audio generalizing s dec with
  | nil => rfl
  | cons byte audio ih =>
    rw [loadLoop_cons, drive_cons]
    split
    · rfl
    · split
      · rfl
      · rw [ih, List.foldl_append]

theorem drive_nil (dec : Decoder) : drive dec [] = ([], dec) := rfl

/-- A call reports the control state that it leaves. -/
theorem control_decode (dec : Decoder) (byte : Byte) :
    (decode dec byte).1.control = (decode dec byte).2.control := by
  simp only [decode]
  split_ifs <;> rfl

/-- The loop goes on behind bytes that neither fail nor end the frame. -/
theorem drive_append {dec : Decoder} {as : List Byte}
    (hbusy : ∀ o ∈ (feed decode dec as).1, o.Busy) (bs : List Byte) :
    drive dec (as ++ bs)
      = ((feed decode dec as).1.flatMap Decoded.written ++ (drive (feed decode dec as).2 bs).1,
          (drive (feed decode dec as).2 bs).2) := by
  induction as generalizing dec with
  | nil => rfl
  | cons a as ih =>
    rw [feed_cons] at hbusy ⊢
    obtain ⟨hret, hcontrol⟩ := hbusy _ List.mem_cons_self
    rw [control_decode] at hcontrol
    rw [List.cons_append, drive_cons, if_neg (not_not.mpr hret), if_neg hcontrol,
      ih fun o ho => hbusy o (List.mem_cons_of_mem _ ho), List.flatMap_cons, List.append_assoc]

/-! ### Stage by stage -/

/-- The header of a frame. -/
def header (h l : Byte) : List Byte := [0xff, h, l, h ^^^ l]

/-- A word has one pair of bytes. -/
theorem append_byte_inj {h l h' l' : Byte} (heq : (h ++ l : Word) = h' ++ l') :
    h = h' ∧ l = l' := by
  have hnat := congrArg BitVec.toNat heq
  rw [toNat_append_byte, toNat_append_byte] at hnat
  have hl := l.isLt
  have hl' := l'.isLt
  exact ⟨BitVec.eq_of_toNat_eq (by omega), BitVec.eq_of_toNat_eq (by omega)⟩

/-- A frame is its header, the data and their parity. -/
theorem exists_frame (payload : List Byte) : ∃ h l : Byte,
    frame payload = header h l ++ payload ++ [xorAll payload] ∧
      (h ++ l : Word) = BitVec.ofNat 16 payload.length := by
  refine ⟨_, _, rfl, ?_⟩
  have hbytes := append_bytes (BitVec.ofNat 16 payload.length)
  rwa [BitVec.setWidth_ushiftRight_eq_extractLsb] at hbytes

theorem frame_eq {payload : List Byte} {h l : Byte}
    (hlen : payload.length = 256 * h.toNat + l.toNat) :
    frame payload = header h l ++ payload ++ [xorAll payload] := by
  obtain ⟨h', l', hframe, hn⟩ := exists_frame payload
  have hn' : (h' ++ l' : Word) = h ++ l := by
    rw [hn]
    apply BitVec.eq_of_toNat_eq
    rw [toNat_append_byte, BitVec.toNat_ofNat, hlen]
    have hh := h.isLt
    have hl := l.isLt
    omega
  obtain ⟨rfl, rfl⟩ := append_byte_inj hn'
  exact hframe

/-- Every length has its two bytes. -/
theorem exists_header {n : ℕ} (hn : n ≤ 65535) : ∃ h l : Byte, n = 256 * h.toNat + l.toNat := by
  refine ⟨BitVec.ofNat 8 (n / 256), BitVec.ofNat 8 n, ?_⟩
  rw [BitVec.toNat_ofNat, BitVec.toNat_ofNat]
  omega

/-- The data bytes behind a header; a length of 0 counts as 65536. -/
def declared (h l : Byte) : ℕ := if h = 0 ∧ l = 0 then 65536 else 256 * h.toNat + l.toNat

theorem declared_of_pos {h l : Byte} (hpos : 1 ≤ 256 * h.toNat + l.toNat) :
    declared h l = 256 * h.toNat + l.toNat := by
  apply if_neg
  rintro ⟨rfl, rfl⟩
  exact absurd hpos (by decide)

theorem remaining_declared (h l : Byte) : remaining (h ++ l) 0 = declared h l := by
  by_cases hzero : h = 0 ∧ l = 0
  · rw [hzero.1, hzero.2]
    rfl
  · have hn := toNat_append_byte h l
    have hpos : 1 ≤ 256 * h.toNat + l.toNat := by
      by_contra hlt
      exact hzero ⟨BitVec.eq_of_toNat_eq (by bv_omega), BitVec.eq_of_toNat_eq (by bv_omega)⟩
    rw [declared_of_pos hpos, remaining]
    bv_omega

/-- A wrong magic number ends it. -/
theorem drive_magic {b : Byte} (hb : b ≠ 0xff) (audio : List Byte) :
    drive initDecoder (b :: audio) = ([], ⟨-C_MAGIC, 0, 0, 0⟩) := by
  have hfail : decode initDecoder b = (⟨-C_MAGIC, -C_MAGIC, []⟩, ⟨-C_MAGIC, 0, 0, 0⟩) := if_pos hb
  rw [drive_cons, hfail]
  rfl

/-- The first three bytes of the header are only stored. -/
theorem drive_length (h l : Byte) (audio : List Byte) :
    drive initDecoder (0xff :: h :: l :: audio) = drive ⟨C_PAR0, h ++ l, h ^^^ l, 0⟩ audio := by
  have hn : h.setWidth 16 <<< 8 ||| l.setWidth 16 = (h ++ l : Word) := by
    rw [BitVec.or_comm]
    exact addr16_word l h
  simp [drive_cons, decode, initDecoder, Decoder.ok, hn]

/-- The header parity. -/
theorem drive_par0 (n : Word) (p q : Byte) (audio : List Byte) :
    drive ⟨C_PAR0, n, p, 0⟩ (q :: audio)
      = if q = p then drive ⟨C_DATA, n, 0, 0⟩ audio else ([], ⟨-C_PAR0, n, p, 0⟩) := by
  rw [drive_cons]
  by_cases hq : q = p
  · have hok : decode ⟨C_PAR0, n, p, 0⟩ q = (⟨0, C_DATA, []⟩, ⟨C_DATA, n, 0, 0⟩) :=
      if_neg (not_not.mpr hq)
    rw [hok, if_pos hq]
    rfl
  · have hfail : decode ⟨C_PAR0, n, p, 0⟩ q = (⟨-C_PAR0, -C_PAR0, []⟩, ⟨-C_PAR0, n, p, 0⟩) :=
      if_pos hq
    rw [hfail, if_neg hq]
    rfl

/-- The data, when the stream ends in it. -/
theorem drive_data_short {n : Word} {ds : List Byte} {p : Byte} {k : Word}
    (hk : ds.length < remaining n k) :
    drive ⟨C_DATA, n, p, k⟩ ds
      = (ds, ⟨C_DATA, n, ds.foldl (· ^^^ ·) p, k + BitVec.ofNat 16 ds.length⟩) := by
  obtain ⟨hbusy, hwritten, hdec⟩ := @feed_data_short n ds p k hk
  have hdrive := drive_append hbusy []
  rw [List.append_nil] at hdrive
  rw [hdrive, hwritten, hdec, drive_nil, List.append_nil]

/-- The data, complete. -/
theorem drive_data {n : Word} {ds : List Byte} {p : Byte} {k : Word}
    (hk : ds.length = remaining n k) (audio : List Byte) :
    drive ⟨C_DATA, n, p, k⟩ (ds ++ audio)
      = (ds ++ (drive ⟨C_PAR1, n, ds.foldl (· ^^^ ·) p, n⟩ audio).1,
          (drive ⟨C_PAR1, n, ds.foldl (· ^^^ ·) p, n⟩ audio).2) := by
  obtain ⟨hbusy, hwritten, hdec⟩ := @feed_data n ds p k hk
  rw [drive_append hbusy, hwritten, hdec]

/-- The data parity. -/
theorem drive_par1 (n : Word) (p q : Byte) (audio : List Byte) :
    drive ⟨C_PAR1, n, p, n⟩ (q :: audio)
      = ([], ⟨if q = p then C_END else -C_PAR1, n, p, n⟩) := by
  rw [drive_cons]
  by_cases hq : q = p
  · have hok : decode ⟨C_PAR1, n, p, n⟩ q = (⟨0, C_END, []⟩, ⟨C_END, n, p, n⟩) :=
      if_neg (not_not.mpr hq)
    rw [hok, if_pos hq]
    rfl
  · have hfail : decode ⟨C_PAR1, n, p, n⟩ q = (⟨-C_PAR1, -C_PAR1, []⟩, ⟨-C_PAR1, n, p, n⟩) :=
      if_pos hq
    rw [hfail, if_neg hq]
    rfl

/-- **A header with its data and one more byte**: that byte decides. -/
theorem drive_body {h l : Byte} {payload : List Byte} (hlen : payload.length = declared h l)
    (q : Byte) (rest : List Byte) :
    drive initDecoder (header h l ++ payload ++ q :: rest)
      = (payload, ⟨if q = xorAll payload then C_END else -C_PAR1, h ++ l, xorAll payload,
          h ++ l⟩) := by
  have hn := hlen.trans (remaining_declared h l).symm
  have hstream : header h l ++ payload ++ q :: rest
      = 0xff :: h :: l :: (h ^^^ l) :: (payload ++ q :: rest) := by
    simp [header]
  rw [hstream, drive_length, drive_par0, if_pos rfl, drive_data hn, drive_par1,
    List.append_nil]
  rfl

/-! ### How a stream ends -/

/-- The stage of the first wrong byte of a stream. -/
inductive Wrong : ℤ → List Byte → Prop
  | magic {b : Byte} (hb : b ≠ 0xff) (rest : List Byte) : Wrong C_MAGIC (b :: rest)
  | header {h l q : Byte} (hq : q ≠ h ^^^ l) (rest : List Byte) :
      Wrong C_PAR0 (0xff :: h :: l :: q :: rest)
  | data {h l q : Byte} {payload : List Byte}
      (hlen : payload.length = 256 * h.toNat + l.toNat) (hq : q ≠ xorAll payload)
      (rest : List Byte) : Wrong C_PAR1 (Dan64.header h l ++ payload ++ q :: rest)

/-- The stream is cut off inside a frame. -/
def Waiting (audio : List Byte) : Prop :=
  ∃ payload, payload ≠ [] ∧ payload.length ≤ 65535 ∧ audio <+: frame payload ∧
    audio ≠ frame payload

/-- A stream that is not too short to tell declares data. -/
def Declares (audio : List Byte) : Prop :=
  ∀ m h l rest, audio = m :: h :: l :: rest → 1 ≤ 256 * h.toNat + l.toNat

/-- A shorter stream that a frame continues is cut off inside it. -/
theorem Waiting.of_append {audio payload cs : List Byte} (hne : payload ≠ [])
    (hlen : payload.length ≤ 65535) (hcs : cs ≠ []) (h : frame payload = audio ++ cs) :
    Waiting audio := by
  refine ⟨payload, hne, hlen, ⟨cs, h.symm⟩, ?_⟩
  intro heq
  rw [← heq] at h
  exact hcs (List.self_eq_append_right.mp h)

/-- A header with too little data is cut off. -/
theorem Waiting.of_data {h l : Byte} {ds : List Byte}
    (hlen : ds.length ≤ 256 * h.toNat + l.toNat) (hpos : 1 ≤ 256 * h.toNat + l.toNat) :
    Waiting (header h l ++ ds) := by
  have hh := h.isLt
  have hl := l.isLt
  -- complete the data with zeros
  let payload : List Byte := ds ++ List.replicate (256 * h.toNat + l.toNat - ds.length) 0
  have hpayload : payload.length = 256 * h.toNat + l.toNat := by
    rw [List.length_append, List.length_replicate, Nat.add_sub_cancel' hlen]
  have hne : payload ≠ [] := List.length_pos_iff.mp (by omega)
  apply Waiting.of_append hne (by omega)
      (List.append_ne_nil_of_right_ne_nil _ (List.cons_ne_nil _ _))
  rw [frame_eq hpayload, ← List.append_assoc, ← List.append_assoc, List.append_assoc (header h l)]

theorem Waiting.of_prefix {as bs : List Byte} (h : Waiting bs) (hp : as <+: bs) : Waiting as := by
  obtain ⟨payload, hne, hlen, hbs, hproper⟩ := h
  refine ⟨payload, hne, hlen, hp.trans hbs, ?_⟩
  rintro rfl
  exact hproper (hbs.eq_of_length_le hp.length_le)

/-- So is the header. -/
theorem Waiting.of_header {h l : Byte} (hpos : 1 ≤ 256 * h.toNat + l.toNat) {as : List Byte}
    (hp : as <+: header h l) : Waiting as := by
  have hheader := @Waiting.of_data h l [] (Nat.zero_le _) hpos
  rw [List.append_nil] at hheader
  exact hheader.of_prefix hp

/-- **The three ends** of a stream that declares data: a frame was read, a byte is
wrong and the decoder names its stage, or the stream is cut off and the decoder
waits. -/
theorem drive_cases {audio : List Byte} (hdecl : Declares audio) :
    let dec := (drive initDecoder audio).2
    (dec.control = C_END ∧ ∃ payload, payload.length ≤ 65535 ∧ frame payload <+: audio) ∨
      (dec.control < 0 ∧ Wrong (-dec.control) audio) ∨
      (0 < dec.control ∧ dec.control < C_END ∧ Waiting audio) := by
  have hone : ∀ h : Byte, 1 ≤ 256 * h.toNat + (1 : Byte).toNat := fun h => Nat.le_add_left 1 _
  rcases audio with - | ⟨m, audio⟩
  · exact .inr (.inr ⟨(by decide : 0 < C_MAGIC), (by decide : C_MAGIC < C_END),
      Waiting.of_header (hone 0) List.nil_prefix⟩)
  by_cases hm : m = 0xff
  swap
  · rw [drive_magic hm]
    exact .inr (.inl ⟨(by decide : -C_MAGIC < 0), Wrong.magic hm audio⟩)
  subst hm
  rcases audio with - | ⟨h, audio⟩
  · exact .inr (.inr ⟨(by decide : 0 < C_LEN0), (by decide : C_LEN0 < C_END),
      Waiting.of_header (hone 0) ⟨[0, 1, 1], rfl⟩⟩)
  rcases audio with - | ⟨l, audio⟩
  · exact .inr (.inr ⟨(by decide : 0 < C_LEN1), (by decide : C_LEN1 < C_END),
      Waiting.of_header (hone h) ⟨[1, h ^^^ 1], rfl⟩⟩)
  have hpos := hdecl 0xff h l audio rfl
  rw [drive_length]
  rcases audio with - | ⟨q, audio⟩
  · exact .inr (.inr ⟨(by decide : 0 < C_PAR0), (by decide : C_PAR0 < C_END),
      Waiting.of_header hpos ⟨[h ^^^ l], rfl⟩⟩)
  rw [drive_par0]
  by_cases hq : q = h ^^^ l
  swap
  · rw [if_neg hq]
    exact .inr (.inl ⟨(by decide : -C_PAR0 < 0), Wrong.header hq audio⟩)
  subst hq
  rw [if_pos rfl]
  have hn := (remaining_declared h l).trans (declared_of_pos hpos)
  by_cases hshort : audio.length < 256 * h.toNat + l.toNat
  · -- the stream ends in the data
    rw [drive_data_short (hn.symm ▸ hshort)]
    exact .inr (.inr ⟨(by decide : 0 < C_DATA), (by decide : C_DATA < C_END),
      Waiting.of_data hshort.le hpos⟩)
  · obtain ⟨payload, rest, rfl, hlen⟩ : ∃ payload rest, audio = payload ++ rest ∧
        payload.length = 256 * h.toNat + l.toNat :=
      ⟨audio.take _, audio.drop _, (List.take_append_drop _ _).symm,
        List.length_take_of_le (not_lt.mp hshort)⟩
    rw [drive_data (hlen.trans hn.symm)]
    rcases rest with - | ⟨q, rest⟩
    · refine .inr (.inr ⟨(by decide : 0 < C_PAR1), (by decide : C_PAR1 < C_END), ?_⟩)
      rw [List.append_nil]
      exact Waiting.of_data hlen.le hpos
    · rw [drive_par1]
      by_cases hq : q = xorAll payload
      · rw [← xorAll, if_pos hq]
        refine .inl ⟨rfl, payload, ?_, ?_⟩
        · have hh := h.isLt
          have hl := l.isLt
          omega
        · rw [frame_eq hlen, hq]
          exact ⟨rest, by simp [header]⟩
      · rw [← xorAll, if_neg hq]
        refine .inr (.inl ⟨(by decide : -C_PAR1 < 0), ?_⟩)
        have hwrong := Wrong.data hlen hq rest
        rwa [List.append_assoc] at hwrong

/-- A stream that begins with a frame ends with it. -/
theorem drive_frame {payload : List Byte} (hne : payload ≠ []) (hlen : payload.length ≤ 65536)
    (rest : List Byte) :
    (drive initDecoder (frame payload ++ rest)).1 = payload ∧
      (drive initDecoder (frame payload ++ rest)).2.control = C_END := by
  obtain ⟨h, l, hframe, hn⟩ := exists_frame payload
  have hdecl : payload.length = declared h l := by
    rw [← remaining_declared, hn, remaining_ofNat (List.length_pos_iff.mpr hne) hlen]
  rw [hframe, List.append_assoc, List.singleton_append, drive_body hdecl, if_pos rfl]
  exact ⟨rfl, rfl⟩

/-! ### Loading -/

theorem load_eq (s : Session) (dest : Word) (audio : List Byte) :
    s.load dest audio =
      (if (drive initDecoder audio).2.control = C_END then 0
        else BitVec.ofInt 8 (drive initDecoder audio).2.control,
        ((drive initDecoder audio).1.foldl loadDataWrite (s, dest)).1) := by
  rw [Session.load, loadLoop_eq_drive]

/-- The codes of the stages are not 0 as bytes. -/
theorem ofInt_stage_ne_zero {c : ℤ} (hne : c ≠ 0) (hlow : -7 ≤ c) (hhigh : c ≤ 7) :
    BitVec.ofInt 8 c ≠ 0 := by
  intro hzero
  have hint := congrArg BitVec.toInt hzero
  rw [BitVec.toInt_ofInt_eq_self (by decide) (by omega) (by omega)] at hint
  exact hne hint

theorem Wrong.stage_le {c : ℤ} {audio : List Byte} (h : Wrong c audio) : c ≤ 7 := by
  cases h with
  | magic hb rest => decide
  | header hq rest => decide
  | data hlen hq rest => decide

/-- **`load` accepts exactly the streams that begin with a frame.**  It writes the
data in order and returns 0; otherwise it returns the stage of the first wrong
byte, negated, or the stage in which the stream was cut off. -/
theorem load_accepts {audio : List Byte} (hdecl : Declares audio) (s : Session) (dest : Word) :
    let dec := (loadLoop (s, dest) initDecoder audio).2
    (dec.control = C_END ↔ ∃ payload, payload.length ≤ 65535 ∧ frame payload <+: audio) ∧
      (∀ payload, payload.length ≤ 65535 → frame payload <+: audio →
        s.load dest audio = (0, (payload.foldl loadDataWrite (s, dest)).1)) ∧
      (dec.control ≠ C_END → (s.load dest audio).1 = BitVec.ofInt 8 dec.control ∧
        (s.load dest audio).1 ≠ 0 ∧ (dec.control < 0 ∧ Wrong (-dec.control) audio ∨
          0 < dec.control ∧ Waiting audio)) := by
  rw [loadLoop_eq_drive]
  intro dec
  have hcases := drive_cases hdecl
  have hframe : ∀ payload, payload.length ≤ 65535 → frame payload <+: audio → payload ≠ [] := by
    rintro payload - ⟨rest, rfl⟩ rfl
    exact absurd (hdecl _ _ _ _ rfl) (by decide)
  refine ⟨⟨fun hend => ?_, ?_⟩, ?_, fun hend => ?_⟩
  · -- a stream that ends in `C_END` is in the first case
    rcases hcases with ⟨-, haccepted⟩ | ⟨hneg, -⟩ | ⟨-, hlt, -⟩
    · exact haccepted
    · exact absurd hend (hneg.trans (by decide)).ne
    · exact absurd hend hlt.ne
  · rintro ⟨payload, hlen, hp⟩
    have hne := hframe payload hlen hp
    obtain ⟨rest, rfl⟩ := hp
    exact (drive_frame hne (hlen.trans (by decide)) rest).2
  · intro payload hlen hp
    have hne := hframe payload hlen hp
    obtain ⟨rest, rfl⟩ := hp
    obtain ⟨hdata, hcontrol⟩ := drive_frame hne (hlen.trans (by decide)) rest
    rw [load_eq, hdata, if_pos hcontrol]
  · have hret : (s.load dest audio).1 = BitVec.ofInt 8 dec.control := by
      rw [load_eq]
      exact if_neg hend
    rw [hret]
    -- the other two cases name the stage
    rcases hcases with ⟨haccepted, -⟩ | ⟨hneg, hwrong⟩ | ⟨hpos, hlt, hwaiting⟩
    · exact absurd haccepted hend
    · have hle : -7 ≤ dec.control := neg_le.mp hwrong.stage_le
      have hne : BitVec.ofInt 8 dec.control ≠ 0 :=
        ofInt_stage_ne_zero hneg.ne hle (hneg.le.trans (by decide))
      exact ⟨rfl, hne, .inl ⟨hneg, hwrong⟩⟩
    · have hne : BitVec.ofInt 8 dec.control ≠ 0 :=
        ofInt_stage_ne_zero hpos.ne' ((by decide : (-7 : ℤ) ≤ 0).trans hpos.le) hlt.le
      exact ⟨rfl, hne, .inr ⟨hpos, hwaiting⟩⟩

/-- One byte, and then something else. -/
theorem load_accepts_one :
    let s : Session := ⟨⟨fun _ => 0, fun _ => 0⟩, []⟩
    let audio : List Byte := [0xff, 0, 1, 1, 0x41, 0x41, 7]
    let dec := (loadLoop (s, 0x1a00) initDecoder audio).2
    (dec.control = C_END ↔ ∃ payload, payload.length ≤ 65535 ∧ frame payload <+: audio) ∧
      (∀ payload, payload.length ≤ 65535 → frame payload <+: audio →
        s.load 0x1a00 audio = (0, (payload.foldl loadDataWrite (s, 0x1a00)).1)) ∧
      (dec.control ≠ C_END → (s.load 0x1a00 audio).1 = BitVec.ofInt 8 dec.control ∧
        (s.load 0x1a00 audio).1 ≠ 0 ∧ (dec.control < 0 ∧ Wrong (-dec.control) audio ∨
          0 < dec.control ∧ Waiting audio)) := by
  refine load_accepts ?_ ⟨⟨fun _ => 0, fun _ => 0⟩, []⟩ 0x1a00
  rintro m h l rest ⟨rfl, rfl, rfl, rfl⟩
  decide

/-! ### Corruption -/

/-- Changing one byte changes the exclusive or. -/
theorem xorAll_change {as bs : List Byte} {d d' : Byte} (hd : d' ≠ d) :
    xorAll (as ++ d' :: bs) ≠ xorAll (as ++ d :: bs) := by
  have hfold : ∀ (bs : List Byte) (p : Byte), bs.foldl (· ^^^ ·) p = p ^^^ xorAll bs := by
    intro bs
    induction bs with
    | nil => intro p; exact BitVec.xor_zero.symm
    | cons b bs ih =>
      intro p
      have hzero : 0 ^^^ b = b := BitVec.zero_xor
      rw [xorAll, List.foldl_cons, List.foldl_cons, ih, ih, hzero, BitVec.xor_assoc]
  intro heq
  rw [xorAll, xorAll, List.foldl_append, List.foldl_append, List.foldl_cons, List.foldl_cons,
    hfold bs, hfold bs, BitVec.xor_left_inj, BitVec.xor_right_inj] at heq
  exact hd heq

/-- A wrong header parity is reported, -/
theorem control_header {h l q : Byte} (hq : q ≠ h ^^^ l) (rest : List Byte) :
    (drive initDecoder (0xff :: h :: l :: q :: rest)).2.control = -C_PAR0 := by
  rw [drive_length, drive_par0, if_neg hq]

/-- and so is a wrong one of the data. -/
theorem control_data {h l q : Byte} {payload : List Byte} (hlen : payload.length = declared h l)
    (hq : q ≠ xorAll payload) (rest : List Byte) :
    (drive initDecoder (0xff :: h :: l :: (h ^^^ l) :: (payload ++ q :: rest))).2.control
      = -C_PAR1 := by
  have hbody := drive_body hlen q rest
  rw [if_neg hq, header, List.append_assoc] at hbody
  exact congrArg (·.2.control) hbody

/-- A frame with one byte changed, wherever it is, ends in an error. -/
theorem drive_corrupted {payload as bs : List Byte} {d d' : Byte} (hne : payload ≠ [])
    (hlen : payload.length ≤ 65535) (hframe : frame payload = as ++ d :: bs) (hd : d' ≠ d) :
    -7 ≤ (drive initDecoder (as ++ d' :: bs)).2.control ∧
      (drive initDecoder (as ++ d' :: bs)).2.control < 0 := by
  obtain ⟨h, l, hlen'⟩ := exists_header hlen
  have hpos : 1 ≤ 256 * h.toNat + l.toNat := hlen' ▸ List.length_pos_iff.mpr hne
  have hdeclared : payload.length = declared h l := hlen'.trans (declared_of_pos hpos).symm
  have hstream : frame payload = 0xff :: h :: l :: (h ^^^ l) :: (payload ++ [xorAll payload]) := by
    rw [frame_eq hlen']
    simp [header]
  rw [hstream] at hframe
  rcases as with - | ⟨a₀, as⟩
  · obtain ⟨rfl, rfl⟩ := List.cons.inj hframe
    rw [List.nil_append, drive_magic hd]
    exact (by decide : -7 ≤ -C_MAGIC ∧ -C_MAGIC < 0)
  obtain ⟨rfl, hframe₁⟩ := List.cons.inj hframe
  -- the header parity is wrong after a change to the length or to itself
  rcases as with - | ⟨a₁, as⟩
  · obtain ⟨rfl, rfl⟩ := List.cons.inj hframe₁
    have hq : h ^^^ l ≠ d' ^^^ l := by
      rw [Ne, BitVec.xor_left_inj]
      exact hd.symm
    rw [List.cons_append, List.nil_append, control_header hq]
    decide
  obtain ⟨rfl, hframe₂⟩ := List.cons.inj hframe₁
  rcases as with - | ⟨a₂, as⟩
  · obtain ⟨rfl, rfl⟩ := List.cons.inj hframe₂
    have hq : h ^^^ l ≠ h ^^^ d' := by
      rw [Ne, BitVec.xor_right_inj]
      exact hd.symm
    rw [List.cons_append, List.cons_append, List.nil_append, control_header hq]
    decide
  obtain ⟨rfl, hframe₃⟩ := List.cons.inj hframe₂
  rcases as with - | ⟨a₃, as⟩
  · obtain ⟨rfl, rfl⟩ := List.cons.inj hframe₃
    rw [List.cons_append, List.cons_append, List.cons_append, List.nil_append, control_header hd]
    decide
  obtain ⟨rfl, hframe₄⟩ := List.cons.inj hframe₃
  have hbytes : payload ++ [xorAll payload] = as ++ d :: bs := hframe₄
  clear hframe hframe₁ hframe₂ hframe₃ hframe₄
  have hcontrol : (drive initDecoder (0xff :: h :: l :: (h ^^^ l) :: (as ++ d' :: bs))).2.control
      = -C_PAR1 := by
    rcases List.eq_nil_or_concat' bs with rfl | ⟨bs, q, rfl⟩
    · -- the data parity
      obtain ⟨rfl, hq⟩ := List.append_inj' hbytes rfl
      obtain rfl := (List.cons.inj hq).1
      exact control_data hdeclared hd []
    · -- the data
      rw [← List.cons_append, ← List.append_assoc] at hbytes
      have hsplit : as ++ d' :: (bs ++ [q]) = (as ++ d' :: bs) ++ [q] := by simp
      rw [hsplit]
      obtain ⟨rfl, hq⟩ := List.append_inj' hbytes rfl
      obtain rfl := (List.cons.inj hq).1
      have hlen'' : (as ++ d' :: bs).length = declared h l := by
        rw [← hdeclared, List.length_append, List.length_append]
        rfl
      exact control_data hlen'' (xorAll_change hd).symm []
  rw [List.cons_append, List.cons_append, List.cons_append, List.cons_append, hcontrol]
  decide

/-- **A frame with one byte changed never loads**: the decoder reports an error
before the end, and `load` does not return 0. -/
theorem load_corrupted {payload : List Byte} (hne : payload ≠ []) (hlen : payload.length ≤ 65535)
    {i : ℕ} (hi : i < (frame payload).length) {b : Byte} (hb : b ≠ (frame payload)[i])
    (s : Session) (dest : Word) :
    (loadLoop (s, dest) initDecoder ((frame payload).set i b)).2.control < 0 ∧
      (s.load dest ((frame payload).set i b)).1 ≠ 0 := by
  have hstream : (frame payload).set i b
      = (frame payload).take i ++ b :: (frame payload).drop (i + 1) :=
    List.set_eq_take_append_cons_drop.trans (if_pos hi)
  have hframe : frame payload
      = (frame payload).take i ++ (frame payload)[i] :: (frame payload).drop (i + 1) := by
    rw [List.cons_getElem_drop_succ, List.take_append_drop]
  obtain ⟨hle, hneg⟩ := drive_corrupted hne hlen hframe hb
  rw [← hstream] at hle hneg
  have hend : (drive initDecoder ((frame payload).set i b)).2.control ≠ C_END :=
    (hneg.trans (by decide)).ne
  refine ⟨?_, ?_⟩
  · rw [loadLoop_eq_drive]
    exact hneg
  · rw [load_eq, if_neg hend]
    exact ofInt_stage_ne_zero hneg.ne hle (hneg.le.trans (by decide))

/-- The data byte of a frame. -/
theorem load_corrupted_one :
    let s : Session := ⟨⟨fun _ => 0, fun _ => 0⟩, []⟩
    (loadLoop (s, 0x1a00) initDecoder ((frame [0x41]).set 4 0x42)).2.control < 0 ∧
      (s.load 0x1a00 ((frame [0x41]).set 4 0x42)).1 ≠ 0 :=
  load_corrupted (List.cons_ne_nil 0x41 []) (by decide) (by decide : 4 < _) (by decide) _ _

end Dan64
