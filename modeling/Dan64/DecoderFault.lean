/-
Dan64/DecoderFault.lean

What the decoder does after an error.

An error negates the control state, and so does the branch for a state that is
none.  The call behind an error returns the state itself, which is no 0 either, but
leaves the decoder where it was: it makes the check that has failed once more
(`decode_failed`).  So an error is final exactly as long as every second byte
behind it is wrong too (`error_final_iff`).
-/
import Dan64.Tape
import Mathlib.Data.List.Induction

namespace Dan64

open Mealy

/-- What a call after an error does. -/
def Decoded.Dead (o : Decoded) : Prop := o.ret ≠ 0 ∧ o.written = [] ∧ o.control ≠ C_END

instance (o : Decoded) : Decidable o.Dead := inferInstanceAs (Decidable (_ ∧ _))

/-- Behind a call that has returned an error every call is dead. -/
def ErrorFinal (bytes : List Byte) : Prop :=
  (feed decode initDecoder bytes).1.Pairwise fun o o' => o.ret ≠ 0 → o'.Dead

/-- The bytes in front of a check, and what the next one is compared with. -/
inductive Checked : List Byte → Byte → Prop
  | magic : Checked [] 0xff
  | header (h l : Byte) : Checked [0xff, h, l] (h ^^^ l)
  | data {h l : Byte} {ds : List Byte} :
      ds.length = declared h l → Checked (Dan64.header h l ++ ds) (xorAll ds)

/-- A check fails, and one of the second, fourth and so on bytes behind is the one it
asks for. -/
def Relapses (bytes : List Byte) : Prop :=
  ∃ as e b cs, Checked as e ∧ bytes = as ++ b :: cs ∧ b ≠ e ∧ ∃ j, cs[2 * j + 1]? = some e

/-! ### Checks -/

/-- The decoder compares the next byte with `e`. -/
structure Guards (dec : Decoder) (e : Byte) : Prop where
  pos : 0 < dec.control
  lt : dec.control < C_END
  right : (decode dec e).1.ret = 0
  wrong : ∀ b, b ≠ e → decode dec b = dec.fail

theorem guards_magic : Guards initDecoder 0xff :=
  ⟨by decide, by decide, rfl, fun _ hb => if_pos hb⟩

theorem guards_par0 (n : Word) (p : Byte) (k : Word) : Guards ⟨C_PAR0, n, p, k⟩ p := by
  refine ⟨(by decide : 0 < C_PAR0), (by decide : C_PAR0 < C_END), ?_, fun b hb => if_pos hb⟩
  have hok : decode ⟨C_PAR0, n, p, k⟩ p = (⟨0, C_DATA, []⟩, ⟨C_DATA, n, 0, k⟩) :=
    if_neg (not_not.mpr rfl)
  rw [hok]

theorem guards_par1 (n : Word) (p : Byte) (k : Word) : Guards ⟨C_PAR1, n, p, k⟩ p := by
  refine ⟨(by decide : 0 < C_PAR1), (by decide : C_PAR1 < C_END), ?_, fun b hb => if_pos hb⟩
  have hok : decode ⟨C_PAR1, n, p, k⟩ p = (⟨0, C_END, []⟩, ⟨C_END, n, p, k⟩) :=
    if_neg (not_not.mpr rfl)
  rw [hok]

/-- A negated state is none of those that are handled. -/
theorem decode_of_neg {dec : Decoder} (hneg : dec.control < 0) (b : Byte) :
    decode dec b = dec.fail := by
  have hne : ∀ c : ℤ, 0 < c → dec.control ≠ c := fun c hc => (hneg.trans hc).ne
  rw [decode, if_neg (hne C_MAGIC (by decide)), if_neg (hne C_LEN0 (by decide)),
    if_neg (hne C_LEN1 (by decide)), if_neg (hne C_PAR0 (by decide)),
    if_neg (hne C_DATA (by decide)), if_neg (hne C_PAR1 (by decide)),
    if_neg (hne C_END (by decide))]

/-- After an error: any byte brings back the state, and returns it. -/
theorem decode_failed {dec : Decoder} (hpos : 0 < dec.control) (b : Byte) :
    decode dec.fail.2 b = (⟨dec.control, dec.control, []⟩, dec) := by
  have hneg : dec.fail.2.control < 0 := by
    show dec.control * -1 < 0
    omega
  have hback : dec.control * -1 * -1 = dec.control := by omega
  rw [decode_of_neg hneg]
  simp only [Decoder.fail, hback]

/-- **After an error**, the calls are dead exactly if no second byte is the one that
the check asks for: induction in steps of two. -/
theorem feed_failed {dec : Decoder} {e : Byte} (hguard : Guards dec e) (cs : List Byte) :
    (∀ o ∈ (feed decode dec.fail.2 cs).1, o.Dead) ↔ ∀ j, cs[2 * j + 1]? ≠ some e := by
  have hdead : ∀ {c : ℤ}, c ≠ 0 → c ≠ C_END → Decoded.Dead ⟨c, c, []⟩ :=
    fun hzero hend => ⟨hzero, rfl, hend⟩
  have hback := hdead hguard.pos.ne' hguard.lt.ne
  induction cs using List.twoStepInduction with
  | nil => exact iff_of_true nofun fun j => by simp
  | singleton x =>
    rw [feed_cons, decode_failed hguard.pos]
    refine iff_of_true ?_ fun j => by simp
    intro o ho
    rw [List.mem_singleton.mp ho]
    exact hback
  | cons_cons x y cs ih _ =>
    rw [feed_cons, decode_failed hguard.pos, feed_cons]
    by_cases hy : y = e
    · -- the check passes
      subst hy
      refine iff_of_false (fun hall => ?_) fun hall => hall 0 rfl
      exact (hall _ (List.mem_cons_of_mem _ List.mem_cons_self)).1 hguard.right
    · have hneg : dec.control * -1 < 0 := by
        have hpos := hguard.pos
        omega
      have hfail : Decoded.Dead dec.fail.1 :=
        hdead hneg.ne (hneg.trans (by decide : (0 : ℤ) < C_END)).ne
      rw [hguard.wrong y hy, List.forall_mem_cons, List.forall_mem_cons, and_iff_right hback,
        and_iff_right hfail]
      refine ih.trans ⟨?_, fun hall j => hall (j + 1)⟩
      rintro hall (_ | j)
      · exact fun heq => hy (Option.some.inj heq)
      · exact hall j

/-! ### Up to an error -/

/-- The decoder behind bytes that no check has failed on. -/
inductive Reading : List Byte → Decoder → Prop
  | magic : Reading [] initDecoder
  | len0 : Reading [0xff] ⟨C_LEN0, 0, 0, 0⟩
  | len1 (h : Byte) : Reading [0xff, h] ⟨C_LEN1, h.setWidth 16, 0 ^^^ h, 0⟩
  | par0 (h l : Byte) : Reading [0xff, h, l] ⟨C_PAR0, h ++ l, h ^^^ l, 0⟩
  | data {h l : Byte} {ds : List Byte} : ds.length < declared h l →
      Reading (header h l ++ ds) ⟨C_DATA, h ++ l, xorAll ds, BitVec.ofNat 16 ds.length⟩
  | par1 {h l : Byte} {ds : List Byte} : ds.length = declared h l →
      Reading (header h l ++ ds) ⟨C_PAR1, h ++ l, xorAll ds, h ++ l⟩
  | ended {as : List Byte} {dec : Decoder} : dec.control = C_END → Reading as dec

theorem remaining_add {n : Word} {m : ℕ} (hm : m < remaining n 0) :
    remaining n (BitVec.ofNat 16 m) + m = remaining n 0 := by
  rw [remaining] at hm ⊢
  rw [remaining]
  bv_omega

theorem xorAll_concat (ds : List Byte) (d : Byte) : xorAll (ds ++ [d]) = xorAll ds ^^^ d := by
  rw [xorAll, List.foldl_append]
  rfl

/-- A byte of the data is taken, the last one too. -/
theorem Reading.data_step {h l : Byte} {ds : List Byte} (hlt : ds.length < declared h l)
    (b : Byte) :
    (decode ⟨C_DATA, h ++ l, xorAll ds, BitVec.ofNat 16 ds.length⟩ b).1.ret = 0 ∧
      Reading (header h l ++ ds ++ [b])
        (decode ⟨C_DATA, h ++ l, xorAll ds, BitVec.ofNat 16 ds.length⟩ b).2 := by
  have hleft := hlt
  rw [← remaining_declared] at hleft
  have hadd := remaining_add hleft
  rw [remaining_declared] at hadd
  have hlen : (ds ++ [b]).length = ds.length + 1 := List.length_append
  rw [decode_data, List.append_assoc, ← xorAll_concat]
  by_cases hlast : BitVec.ofNat 16 ds.length + 1 = (h ++ l : Word)
  · rw [if_pos hlast, hlast]
    rw [add_one_eq_iff] at hlast
    exact ⟨rfl, .par1 (by omega)⟩
  · rw [if_neg hlast]
    rw [add_one_eq_iff] at hlast
    have hnext := @Reading.data h l (ds ++ [b]) (by omega)
    rw [hlen, BitVec.ofNat_add] at hnext
    exact ⟨rfl, hnext⟩

/-- **Step.**  A byte is taken, or a check fails on it. -/
theorem Reading.step {as : List Byte} {dec : Decoder} (hread : Reading as dec) (b : Byte) :
    (decode dec b).1.ret = 0 ∧ Reading (as ++ [b]) (decode dec b).2 ∨
      ∃ e, Checked as e ∧ b ≠ e := by
  cases hread with
  | magic =>
    by_cases hb : b = 0xff
    · subst hb
      exact .inl ⟨rfl, .len0⟩
    · exact .inr ⟨_, .magic, hb⟩
  | len0 => exact .inl ⟨rfl, .len1 b⟩
  | len1 h =>
    have hn : h.setWidth 16 <<< 8 ||| b.setWidth 16 = (h ++ b : Word) := by
      rw [BitVec.or_comm]
      exact addr16_word b h
    have hstep : decode ⟨C_LEN1, h.setWidth 16, 0 ^^^ h, 0⟩ b
        = (⟨0, C_PAR0, []⟩, ⟨C_PAR0, h ++ b, h ^^^ b, 0⟩) := by
      simp [decode, Decoder.ok, hn, C_LEN1, C_PAR0]
    rw [hstep]
    exact .inl ⟨rfl, .par0 h b⟩
  | par0 h l =>
    by_cases hb : b = h ^^^ l
    · subst hb
      have hstep : decode ⟨C_PAR0, h ++ l, h ^^^ l, 0⟩ (h ^^^ l)
          = (⟨0, C_DATA, []⟩, ⟨C_DATA, h ++ l, 0, 0⟩) := if_neg (not_not.mpr rfl)
      rw [hstep]
      have hpos : 0 < declared h l := by
        rw [← remaining_declared]
        exact Nat.succ_pos _
      exact .inl ⟨rfl, @Reading.data h l [] hpos⟩
    · exact .inr ⟨_, .header h l, hb⟩
  | data hlt => exact .inl (Reading.data_step hlt b)
  | @par1 h l ds heq =>
    by_cases hb : b = xorAll ds
    · subst hb
      have hstep : decode ⟨C_PAR1, h ++ l, xorAll ds, h ++ l⟩ (xorAll ds)
          = (⟨0, C_END, []⟩, ⟨C_END, h ++ l, xorAll ds, h ++ l⟩) := if_neg (not_not.mpr rfl)
      rw [hstep]
      exact .inl ⟨rfl, .ended rfl⟩
    · exact .inr ⟨_, .data heq, hb⟩
  | ended hend =>
    obtain ⟨control, n, p, k⟩ := dec
    obtain rfl : control = C_END := hend
    exact .inl ⟨rfl, .ended rfl⟩

/-- **Run.**  No call fails, or the first that does fails on a check. -/
theorem Reading.run {as : List Byte} {dec : Decoder} (hread : Reading as dec) (bytes : List Byte) :
    (∀ o ∈ (feed decode dec bytes).1, o.ret = 0) ∨
      ∃ bs e b cs, bytes = bs ++ b :: cs ∧ Checked (as ++ bs) e ∧ b ≠ e := by
  induction bytes generalizing as dec with
  | nil => exact .inl nofun
  | cons b bytes ih =>
    rcases hread.step b with ⟨hret, hread⟩ | ⟨e, hcheck, hb⟩
    · rcases ih hread with hall | ⟨bs, e, b', cs, rfl, hcheck, hb'⟩
      · exact .inl (List.forall_mem_cons.mpr ⟨hret, hall⟩)
      · rw [List.append_assoc] at hcheck
        exact .inr ⟨b :: bs, e, b', cs, rfl, hcheck, hb'⟩
    · exact .inr ⟨[], e, b, bytes, rfl, (List.append_nil as).symm ▸ hcheck, hb⟩

theorem feed_length (h l : Byte) :
    feed decode initDecoder [0xff, h, l]
      = ([⟨0, C_LEN0, []⟩, ⟨0, C_LEN1, []⟩, ⟨0, C_PAR0, []⟩], ⟨C_PAR0, h ++ l, h ^^^ l, 0⟩) := by
  have hn : h.setWidth 16 <<< 8 ||| l.setWidth 16 = (h ++ l : Word) := by
    rw [BitVec.or_comm]
    exact addr16_word l h
  simp [feed_cons, decode, initDecoder, Decoder.ok, hn]

/-- In front of a check no call fails. -/
theorem Checked.guards {as : List Byte} {e : Byte} (hcheck : Checked as e) :
    (∀ o ∈ (feed decode initDecoder as).1, o.ret = 0) ∧
      Guards (feed decode initDecoder as).2 e := by
  cases hcheck with
  | magic => exact ⟨nofun, guards_magic⟩
  | header h l =>
    rw [feed_length]
    exact ⟨by simp, guards_par0 _ _ _⟩
  | @data h l ds hlen =>
    obtain ⟨hbusy, -, hdec⟩ := @feed_data (h ++ l) ds 0 0 (hlen.trans (remaining_declared h l).symm)
    have hpar : feed decode ⟨C_PAR0, h ++ l, h ^^^ l, 0⟩ [h ^^^ l]
        = ([⟨0, C_DATA, []⟩], ⟨C_DATA, h ++ l, 0, 0⟩) := by
      simp [feed_cons, decode, Decoder.ok, C_PAR0, C_DATA]
    have hheader : Dan64.header h l = [0xff, h, l] ++ [h ^^^ l] := rfl
    rw [hheader, feed_append, feed_append, feed_length, hpar, hdec]
    refine ⟨?_, guards_par1 _ _ _⟩
    intro o ho
    rcases List.mem_append.mp ho with ho | ho
    · simp only [List.cons_append, List.nil_append, List.mem_cons, List.not_mem_nil, or_false] at ho
      rcases ho with rfl | rfl | rfl | rfl <;> rfl
    · exact (hbusy o ho).1

/-- **A decoder error is final** exactly if the check that has failed does not pass
later on. -/
theorem error_final_iff (bytes : List Byte) : ErrorFinal bytes ↔ ¬ Relapses bytes := by
  -- what is behind the first error decides
  have hfirst : ∀ as e b cs, Checked as e → b ≠ e →
      (ErrorFinal (as ++ b :: cs) ↔ ∀ j, cs[2 * j + 1]? ≠ some e) := by
    intro as e b cs hcheck hb
    obtain ⟨hall, hguard⟩ := hcheck.guards
    have hret : (feed decode initDecoder as).2.fail.1.ret ≠ 0 := by
      have hpos := hguard.pos
      show (feed decode initDecoder as).2.control * -1 ≠ 0
      omega
    rw [ErrorFinal, feed_append, feed_cons, hguard.wrong b hb, ← feed_failed hguard,
      List.pairwise_append, List.pairwise_cons]
    constructor
    · rintro ⟨-, ⟨hdead, -⟩, -⟩ o ho
      exact hdead o ho hret
    · intro hdead
      refine ⟨?_, ⟨fun o ho _ => hdead o ho, ?_⟩, fun o ho _ _ hne => absurd (hall o ho) hne⟩
      · exact List.pairwise_of_forall_mem_list fun o ho _ _ hne => absurd (hall o ho) hne
      · exact List.pairwise_of_forall_mem_list fun _ _ o ho _ => hdead o ho
  constructor
  · rintro hfinal ⟨as, e, b, cs, hcheck, rfl, hb, j, hj⟩
    exact (hfirst as e b cs hcheck hb).mp hfinal j hj
  · intro hrel
    rcases Reading.magic.run bytes with hall | ⟨as, e, b, cs, rfl, hcheck, hb⟩
    · exact List.pairwise_of_forall_mem_list fun o ho _ _ hne => absurd (hall o ho) hne
    · exact (hfirst as e b cs hcheck hb).mpr fun j hj => hrel ⟨as, e, b, cs, hcheck, rfl, hb, j, hj⟩

/-- A wrong magic number, any byte, and a frame: the frame is read as if nothing had
happened. -/
theorem frame_after_error :
    ¬ ErrorFinal [0x00, 0x00, 0xff, 0x00, 0x01, 0x01, 0x41, 0x41] ∧
      feed decode initDecoder [0x00, 0x00, 0xff, 0x00, 0x01, 0x01, 0x41, 0x41]
        = ([⟨-1, -1, []⟩, ⟨1, 1, []⟩, ⟨0, C_LEN0, []⟩, ⟨0, C_LEN1, []⟩, ⟨0, C_PAR0, []⟩,
            ⟨0, C_DATA, []⟩, ⟨0, C_PAR1, [0x41]⟩, ⟨0, C_END, []⟩], ⟨C_END, 1, 0x41, 1⟩) :=
  ⟨by unfold ErrorFinal; decide, by decide⟩

end Dan64
