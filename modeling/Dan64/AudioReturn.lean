/-
Dan64/AudioReturn.lean

Saves that return.

`save` keeps the error state before it waits for the end, so that a program it is made of
fails with the error flag set (`Prog.Fails`) and returns 0 behind the wait only
(`Prog.Tested`).  A run is on its way, in error, or behind its last sample (`Progress`).  So
a save that returns has the result 0 exactly if no error was there when the state was kept,
and then it has played all its samples (`ret_zero_iff`); and there is a run that does
(`exists_save`).
-/
import Dan64.AudioOut

namespace Dan64

open Mealy

namespace AudioOut

/-- The main loop does not touch what the handler plays. -/
theorem mainLoop_kept (s : State) :
    (mainLoop s).played = s.played ∧ (mainLoop s).cnt = s.cnt ∧ (mainLoop s).err = s.err ∧
      (mainLoop s).ocr2b = s.ocr2b := by
  rw [mainLoop]
  split
  · rw [ainPut]
    split
    · exact ⟨rfl, rfl, rfl, rfl⟩
    · exact ⟨rfl, rfl, rfl, rfl⟩
    · exact ⟨rfl, rfl, rfl, rfl⟩
  · exact ⟨rfl, rfl, rfl, rfl⟩
  · split
    · exact ⟨rfl, rfl, rfl, rfl⟩
    · exact ⟨rfl, rfl, rfl, rfl⟩
  · exact ⟨rfl, rfl, rfl, rfl⟩

namespace Prog

/-- With the flag set, it does not return 0. -/
def Fails : Prog → Prop
  | put _ k => k.Fails
  | ifErr t _ => t.Fails
  | waitErr k => k.Fails
  | ret code => code ≠ 0

/-- It returns 0 only behind the wait, without the flag before. -/
def Tested : Prog → Prop
  | put _ k => k.Fails ∧ k.Tested
  | ifErr t e => t.Fails ∧ e.Tested
  | waitErr k => k = ret 0
  | ret _ => False

end Prog

theorem fails_puts {k : Prog} (h : k.Fails) (samples : List Word) : (puts samples k).Fails := by
  induction samples with
  | nil => exact h
  | cons sample samples ih => exact ih

theorem tested_puts {k : Prog} (hfails : k.Fails) (h : k.Tested) (samples : List Word) :
    (puts samples k).Tested := by
  induction samples with
  | nil => exact h
  | cons sample samples ih => exact ⟨fails_puts hfails samples, ih⟩

theorem fails_saveDone : saveDone.Fails := (by decide : (1 : Byte) ≠ 0)

theorem tested_saveEnd (enc : Signal.Encoder) : (saveEnd enc).Tested :=
  ⟨fails_saveDone, tested_puts fails_saveDone ⟨(by decide : (1 : Byte) ≠ 0), rfl⟩ _⟩

theorem tested_saveLoop (enc : Signal.Encoder) (data : List Byte) :
    (saveLoop enc data).Fails ∧ (saveLoop enc data).Tested := by
  induction data generalizing enc with
  | nil => exact ⟨fails_saveDone, tested_saveEnd enc⟩
  | cons byte data ih =>
    obtain ⟨hfails, htested⟩ := ih (Signal.encodeByte true enc byte).2
    exact ⟨fails_saveDone, fails_saveDone, tested_puts hfails htested _⟩

theorem fails_save (data : List Byte) : (save data).Fails :=
  fails_puts (tested_saveLoop _ data).1 _

theorem tested_save (data : List Byte) : (save data).Tested :=
  tested_puts (tested_saveLoop _ data).1 (tested_saveLoop _ data).2 _

/-- Where a save of the bytes stands: on its way, in error, or behind its last sample. -/
inductive Progress (bytes : List Byte) (s : State) : Prop
  | saving (err : s.err = false) (tested : s.prog.Tested)
      (conserved : s.queued ++ s.prog.pending = bytes)
  | failing (err : s.err = true) (fails : s.prog.Fails)
  | done (err : s.err = true) (prog : s.prog = .waitErr (.ret 0) ∨ s.prog = .ret 0)
      (queued : s.queued = bytes) (empty : s.ring.Empty)

/-- A tested program fails, or waits for the end. -/
theorem Prog.Tested.fails {prog : Prog} (h : prog.Tested) :
    prog.Fails ∨ prog = .waitErr (.ret 0) := by
  cases prog with
  | put byte k => exact .inl h.1
  | ifErr t e => exact .inl h.1
  | waitErr k => exact .inr (congrArg _ h)
  | ret code => exact h.elim

/-- With the flag set, the branches that fail are taken. -/
theorem fails_mainLoop {s : State} (herr : s.err = true) (hfails : s.prog.Fails) :
    (mainLoop s).prog.Fails := by
  rcases hprog : s.prog with ⟨byte, k⟩ | ⟨t, e⟩ | k | code <;> rw [hprog] at hfails
  · rcases hstage : s.stage with - | next | - <;> simp only [mainLoop, ainPut, hprog, hstage] <;>
      exact hfails
  · simp only [mainLoop, hprog, herr, if_true]
    exact hfails
  · simp only [mainLoop, hprog, herr, if_true]
    exact hfails
  · simp only [mainLoop, hprog]
    exact hfails

theorem progress_mainLoop {bytes : List Byte} {s : State} (h : Progress bytes s) :
    Progress bytes (mainLoop s) := by
  obtain ⟨-, -, herr', -⟩ := mainLoop_kept s
  rcases h with ⟨herr, htested, hpending⟩ | ⟨herr, hfails⟩ | ⟨herr, hprog, hqueued, hempty⟩
  · rcases hprog : s.prog with ⟨byte, k⟩ | ⟨t, e⟩ | k | code <;> rw [hprog] at htested hpending
    · -- a sample goes from the program to the queue
      rcases hstage : s.stage with - | next | - <;>
        refine .saving (herr'.trans herr) ?_ ?_ <;> simp only [mainLoop, ainPut, hprog, hstage]
      · exact htested
      · exact hpending
      · exact htested
      · exact hpending
      · exact htested.2
      · rw [List.append_assoc]
        exact hpending
    · refine .saving (herr'.trans herr) ?_ ?_ <;> simp only [mainLoop, hprog, herr]
      · exact htested.2
      · exact hpending
    · refine .saving (herr'.trans herr) ?_ ?_ <;> simp only [mainLoop, hprog, herr]
      · exact hprog ▸ htested
      · exact hprog ▸ hpending
    · exact htested.elim
  · exact .failing (herr'.trans herr) (fails_mainLoop herr hfails)
  · have hret : mainLoop s = { s with prog := .ret 0 } := by
      rcases hprog with hprog | hprog
      · rw [mainLoop, hprog]
        exact if_pos herr
      · obtain ⟨ring, err, cnt, ocr2b, prog, stage, queued, played, dropped⟩ := s
        subst hprog
        rfl
    rw [hret]
    exact .done herr (.inr rfl) hqueued hempty

/-- The handler stops a save that finds the ring empty. -/
theorem progress_timer2Ovf {bytes : List Byte} {s : State} (h : Progress bytes s) :
    Progress bytes (timer2Ovf s) := by
  rw [timer2Ovf]
  split
  · rcases h with ⟨herr, htested, hpending⟩ | ⟨herr, hfails⟩ | ⟨herr, hprog, hqueued, hempty⟩
    · exact .saving herr htested hpending
    · exact .failing herr hfails
    · exact .done herr hprog hqueued hempty
  · split
    · next hplay =>
      rcases h with ⟨herr, htested, hpending⟩ | ⟨herr, hfails⟩ | ⟨herr, hprog, hqueued, hempty⟩
      · have hempty : s.ring.Empty := hplay.resolve_right (by rw [herr]; exact Bool.false_ne_true)
        rcases htested.fails with hfails | hprog
        · exact .failing rfl hfails
        · rw [hprog] at hpending
          exact .done rfl (.inl hprog) ((List.append_nil _).symm.trans hpending) hempty
      · exact .failing rfl hfails
      · exact .done rfl hprog hqueued hempty
    · next hplay =>
      rcases h with ⟨herr, htested, hpending⟩ | ⟨herr, hfails⟩ | ⟨herr, hprog, hqueued, hempty⟩
      · exact .saving herr htested hpending
      · exact absurd (.inr herr) hplay
      · exact absurd (.inr herr) hplay

theorem progress_run {bytes : List Byte} {s : State} (h : Progress bytes s)
    (events : List Event) : Progress bytes (run s events) := by
  refine List.foldlRecOn events step h ?_
  intro s hs event _
  cases event with
  | mainLoop => exact progress_mainLoop hs
  | timer2Ovf =>
    rw [step]
    split
    · exact hs
    · exact progress_timer2Ovf hs

theorem progress_aoutOn (ring : RingBuf Byte 32) (cnt : ℕ) (data : List Byte) :
    Progress ((samples data).map saveQueue) (aoutOn ring cnt (save data)) :=
  .saving rfl (tested_save data) (queues_save data).pending

/-- **A save that returns 0** has played all its samples. -/
theorem played_of_ret (ring : RingBuf Byte 32) (cnt : ℕ) (data : List Byte) (events : List Event)
    (hret : (run (aoutOn ring cnt (save data)) events).prog = .ret 0) :
    (run (aoutOn ring cnt (save data)) events).played = (samples data).map saveQueue := by
  have hprogress := progress_run (progress_aoutOn ring cnt data) events
  have hfifo := (fifo_run (fifo_aoutOn ring cnt (save data)) events).conserved
  rcases hprogress with ⟨-, htested, -⟩ | ⟨-, hfails⟩ | ⟨-, -, hqueued, hempty⟩
  · rw [hret] at htested
    exact htested.elim
  · rw [hret] at hfails
    exact absurd rfl hfails
  · rw [← hqueued, ← hfifo, (RingBuf.contents_eq_nil_iff _).mpr hempty, List.append_nil]

/-! ### A save that returns 0 -/

theorem step_timer2Ovf {s : State} (h : s.prog.Tested) : step s .timer2Ovf = timer2Ovf s := by
  rw [step]
  split
  · next hret =>
    rw [hret] at h
    exact h.elim
  · rfl

/-- One sample goes through an empty ring. -/
theorem push_pop_empty {ring : RingBuf Byte 32} (h : ring.Empty) (byte : Byte) :
    ¬ ring.Full ∧ (ring.push byte).pop.Empty := by
  have hlength := ring.empty_iff.mp h
  have hfull : ¬ ring.Full := by
    rw [RingBuf.full_iff, hlength]
    decide
  have hnot := @RingBuf.not_empty_push _ _ (by decide) ring byte
  have hcontents := congrArg List.length (RingBuf.contents_pop hnot)
  rw [RingBuf.length_contents, RingBuf.length_push hfull, hlength, List.length_cons,
    RingBuf.length_contents] at hcontents
  exact ⟨hfull, (RingBuf.empty_iff _).mpr (Nat.succ.inj hcontents).symm⟩

/-- A sample, and the five interrupts until it is time for the next. -/
def turns : List Event := List.replicate 3 .mainLoop ++ List.replicate 5 .timer2Ovf

theorem run_turns {s : State} {byte : Byte} {k : Prog} (hprog : s.prog = .put byte k)
    (hk : k.Tested)
    (hstage : s.stage = .readEnd) (hempty : s.ring.Empty) (herr : s.err = false)
    (hcnt : s.cnt = 4) :
    run s turns = { s with
      cnt := 4, ocr2b := (s.ring.push byte).head, prog := k, ring := (s.ring.push byte).pop,
      queued := s.queued ++ [byte], played := s.played ++ [(s.ring.push byte).head] } := by
  have hfull := (push_pop_empty hempty byte).1
  have hfull' : (s.ring.stop + 1) % 32 ≠ s.ring.start := hfull
  have hne : ¬ (s.ring.push byte).Empty := RingBuf.not_empty_push (by decide) s.ring byte
  -- the sample is stored
  let u : State := { s with ring := s.ring.push byte, prog := k, queued := s.queued ++ [byte] }
  have hput : run s (List.replicate 3 .mainLoop) = u := by
    simp [u, List.replicate, run, step, mainLoop, ainPut, hprog, hstage, hfull, hfull']
  -- the first interrupt takes it
  let v : State :=
    { u with
      cnt := 0, ocr2b := (s.ring.push byte).head, ring := (s.ring.push byte).pop
      played := s.played ++ [(s.ring.push byte).head] }
  have htake : step u .timer2Ovf = v := by
    rw [step_timer2Ovf hk]
    simp [u, v, timer2Ovf, hcnt, herr, hne]
  have hcount : ∀ n < 4, step { v with cnt := n } .timer2Ovf = { v with cnt := n + 1 } := by
    intro n hn
    rw [@step_timer2Ovf { v with cnt := n } hk]
    exact if_pos hn
  rw [turns, run_append, hput]
  show step (step (step (step (step u .timer2Ovf) .timer2Ovf) .timer2Ovf) .timer2Ovf) .timer2Ovf = _
  rw [htake, hcount 0 (by decide), hcount 1 (by decide), hcount 2 (by decide), hcount 3 (by decide)]

/-- The main loop is always in time: induction on what it has to do. -/
theorem exists_run_ret {prog : Prog} (h : prog.Tested) {s : State} (hprog : s.prog = prog)
    (hstage : s.stage = .readEnd) (hempty : s.ring.Empty) (herr : s.err = false)
    (hcnt : s.cnt = 4) :
    ∃ events, (run s events).prog = .ret 0 := by
  induction prog generalizing s with
  | put byte k ih =>
    have hrun := run_turns hprog h.2 hstage hempty herr hcnt
    obtain ⟨events, hevents⟩ : ∃ events, (run (run s turns) events).prog = .ret 0 := by
      rw [hrun]
      exact ih h.2 rfl hstage (push_pop_empty hempty byte).2 herr rfl
    refine ⟨turns ++ events, ?_⟩
    rw [run_append]
    exact hevents
  | ifErr t e _ ih =>
    obtain ⟨events, hevents⟩ := @ih h.2 { s with prog := e } rfl hstage hempty herr hcnt
    refine ⟨.mainLoop :: events, ?_⟩
    have hstep : step s .mainLoop = { s with prog := e } := by
      simp [step, mainLoop, hprog, herr]
    rw [run, List.foldl_cons, hstep]
    exact hevents
  | waitErr k _ =>
    obtain rfl : k = .ret 0 := h
    refine ⟨[.timer2Ovf, .mainLoop], ?_⟩
    simp [run, step, timer2Ovf, mainLoop, hprog, hcnt, hempty]
  | ret code => exact h.elim

theorem exists_save (ring : RingBuf Byte 32) (data : List Byte) :
    ∃ events, (run (aoutOn ring 4 (save data)) events).prog = .ret 0 :=
  exists_run_ret (tested_save data) rfl rfl rfl rfl rfl

/-! ### A save that does not return -/

theorem committed_puts (samples : List Word) (k : Prog) :
    (puts samples k).committed = k.committed + samples.length := by
  induction samples with
  | nil => rfl
  | cons sample samples ih => exact congrArg (· + 1) ih

/-- The sync and the magic number alone are more samples than the ring holds. -/
theorem committed_save (data : List Byte) : 31 < (save data).committed := by
  have hmagic : 31 < ((Signal.encodeSync true ⟨32000, 0, 0⟩).1 ++ (Signal.encodeByte' true
      (Signal.encodeSync true ⟨32000, 0, 0⟩).2 0xff).1).length := by
    decide +kernel
  refine hmagic.trans_le ?_
  rw [save, committed_puts, Signal.encodeHeader]
  simp only [List.length_append]
  omega

/-- If the first interrupt comes before the first sample, the save waits for ever. -/
theorem exists_hung (ring : RingBuf Byte 32) (data : List Byte) :
    ∃ events, ∀ es, Hung (run (aoutOn ring 4 (save data)) (events ++ es)) := by
  have hfifo := fifo_aoutOn ring 4 (save data)
  have hbad : ¬ Fed (aoutOn ring 4 (save data)) .timer2Ovf := fun hfed =>
    absurd (hfed le_rfl rfl) (not_le.mpr (committed_save data))
  obtain ⟨n, hhung⟩ := hung_of_overrun (fifo_step hfifo _) (overrun_of_not_fed hbad)
  refine ⟨.timer2Ovf :: List.replicate n .mainLoop, fun es => ?_⟩
  rw [run_append]
  exact (hung_run (fifo_run (fifo_step hfifo .timer2Ovf) _) hhung es).1

/-! ### The result -/

/-- The wait for the end begins before an interrupt has found the ring empty, and all the
samples are played. -/
def Succeeds (all : List Byte) (s : State) (events : List Event) : Prop :=
  (∃ es k, es <+: events ∧ (run s es).err = false ∧ (run s es).prog = .waitErr k) ∧
    (run s events).played = all

/-- Behind the last test. -/
def Passed (s : State) : Prop := s.prog = .waitErr (.ret 0) ∨ s.prog = .ret 0

theorem Prog.Fails.not_passed {s : State} (h : s.prog.Fails) : ¬ Passed s := by
  rintro (hprog | hprog)
  · rw [hprog] at h
    exact h rfl
  · rw [hprog] at h
    exact h rfl

/-- An interrupt leaves the main loop where it is. -/
theorem step_timer2Ovf_prog (s : State) : (step s .timer2Ovf).prog = s.prog := by
  rw [step]
  split
  · rfl
  · rw [timer2Ovf]
    split
    · rfl
    · split <;> rfl

theorem passed_step {s : State} (h : Passed s) (event : Event) : Passed (step s event) := by
  cases event with
  | timer2Ovf =>
    rw [Passed, step_timer2Ovf_prog]
    exact h
  | mainLoop =>
    rcases h with hprog | hprog
    · rw [step, mainLoop, hprog]
      dsimp only
      split
      · exact .inr rfl
      · exact .inl hprog
    · rw [step, mainLoop, hprog]
      exact .inr hprog

theorem passed_run {s : State} (h : Passed s) (events : List Event) : Passed (run s events) :=
  List.foldlRecOn events step h fun _ hs event _ => passed_step hs event

/-- The last test is passed without an error. -/
theorem waitErr_of_passed {bytes : List Byte} {s : State} (h : Progress bytes s)
    (hnot : ¬ Passed s) (hpassed : Passed (step s .mainLoop)) :
    (step s .mainLoop).err = false ∧ (step s .mainLoop).prog = .waitErr (.ret 0) := by
  have hkept : (step s .mainLoop).err = s.err := (mainLoop_kept s).2.2.1
  have hnext := progress_run h [.mainLoop]
  rcases h with ⟨herr, -, -⟩ | ⟨herr, hfails⟩ | ⟨-, hprog, -, -⟩
  · refine ⟨hkept.trans herr, hpassed.resolve_right fun hret => ?_⟩
    -- a program that still tests does not return
    rcases hnext with ⟨-, htested, -⟩ | ⟨herr', -⟩ | ⟨herr', -⟩
    · have hret' : (run s [.mainLoop]).prog = .ret 0 := hret
      rw [hret'] at htested
      exact htested
    · exact absurd ((hkept.trans herr).symm.trans herr') Bool.false_ne_true
    · exact absurd ((hkept.trans herr).symm.trans herr') Bool.false_ne_true
  · exact absurd hpassed (fails_mainLoop herr hfails).not_passed
  · exact absurd hprog hnot

/-- A run comes past the last test without an error. -/
theorem exists_prefix_of_passed {bytes : List Byte} {s : State} (h : Progress bytes s)
    (hs : ¬ Passed s) {events : List Event} (hpassed : Passed (run s events)) :
    ∃ es, es <+: events ∧ (run s es).err = false ∧ (run s es).prog = .waitErr (.ret 0) := by
  induction events using List.reverseRecOn with
  | nil => exact absurd hpassed hs
  | append_singleton events event ih =>
    by_cases hbefore : Passed (run s events)
    · obtain ⟨es, hes, hrest⟩ := ih hbefore
      exact ⟨es, hes.trans (List.prefix_append _ _), hrest⟩
    · have hrun : run s (events ++ [event]) = step (run s events) event :=
        run_append s events [event]
      rw [hrun] at hpassed
      cases event with
      | timer2Ovf =>
        rw [Passed, step_timer2Ovf_prog] at hpassed
        exact absurd hpassed hbefore
      | mainLoop =>
        have hwait := waitErr_of_passed (progress_run h events) hbefore hpassed
        exact ⟨events ++ [.mainLoop], List.prefix_rfl, hrun ▸ hwait⟩

/-- A save that waits for the end without an error has passed. -/
theorem Progress.passed {bytes : List Byte} {s : State} (h : Progress bytes s)
    (herr : s.err = false) {k : Prog} (hprog : s.prog = .waitErr k) : Passed s := by
  rcases h with ⟨-, htested, -⟩ | ⟨herr', -⟩ | ⟨herr', -⟩
  · rw [hprog] at htested
    exact .inl (hprog.trans (congrArg _ htested))
  · exact absurd (herr.symm.trans herr') Bool.false_ne_true
  · exact absurd (herr.symm.trans herr') Bool.false_ne_true

/-- **The result of a save** is 0 exactly if it succeeds. -/
theorem ret_zero_iff (ring : RingBuf Byte 32) (cnt : ℕ) (data : List Byte) {events : List Event}
    {code : Byte} (hret : (run (aoutOn ring cnt (save data)) events).prog = .ret code) :
    code = 0 ↔ Succeeds ((samples data).map saveQueue) (aoutOn ring cnt (save data)) events := by
  have hprogress := progress_aoutOn ring cnt data
  constructor
  · rintro rfl
    have hstart : ¬ Passed (aoutOn ring cnt (save data)) := (fails_save data).not_passed
    obtain ⟨es, hes, herr, hprog⟩ := exists_prefix_of_passed hprogress hstart (.inr hret)
    exact ⟨⟨es, _, hes, herr, hprog⟩, played_of_ret ring cnt data events hret⟩
  · rintro ⟨⟨es, k, ⟨rest, rfl⟩, herr, hprog⟩, -⟩
    have hpassed := (progress_run hprogress es).passed herr hprog
    rw [run_append] at hret
    rcases passed_run hpassed rest with hwait | hzero
    · rw [hret] at hwait
      cases hwait
    · rw [hret] at hzero
      cases hzero
      rfl

end AudioOut

end Dan64
