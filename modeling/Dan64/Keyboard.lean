/-
Dan64/Keyboard.lean

The keyboard: scan codes from the serial port through a ring to characters.

`keyboard_asc` takes codes from the ring until one of them is an answer; a turn of its
loop is a step here, and so is a poll from elsewhere.  As long as the ring has space the
codes are translated one after the other, however they are spread over the calls
(`results_run`).

The keys that are really held are a function of the codes alone (`down`).  The decoder
has one bit for two shift keys: it says whether the last code of a shift key was a make.
That is less than a shift key being down, and shows in every character that is then
pressed (`keyboard_iff`).
-/
import Dan64.Mealy
import Dan64.RingBuf
import Dan64.Vm

namespace Dan64

open Mealy

namespace Keyboard

/-! ### The map (`keyb_map.h`) -/

def KEYB_BUFFER_SIZE : ℕ := 16
def KEYB_MAX_SCANCODE : Byte := 0x76

def no : Byte × Byte := (0, 0)
def key (c shifted : Char) : Byte × Byte := (BitVec.ofNat 8 c.toNat, BitVec.ofNat 8 shifted.toNat)

def keyb_map : List (Byte × Byte) :=
  [no, no, no, no, no, no, no, no, no, no, no, no, no, key '\x09' '\x00', key '\x60' '|', no, no,
   no, no, no, no, key 'q' 'Q', key '1' '!', no, no, no, key 'z' 'Z', key 's' 'S', key 'a' 'A',
   key 'w' 'W', key '2' '\x22', no, no, key 'c' 'C', key 'x' 'X', key 'd' 'D', key 'e' 'E',
   key '4' '$', key '3' '\x9c', no, no, key '\x20' '\x00', key 'v' 'V', key 'f' 'F', key 't' 'T',
   key 'r' 'R', key '5' '%', no, no, key 'n' 'N', key 'b' 'B', key 'h' 'H', key 'g' 'G',
   key 'y' 'Y', key '6' '^', no, no, no, key 'm' 'M', key 'j' 'J', key 'u' 'U', key '7' '&',
   key '8' '*', no, no, key ',' '<', key 'k' 'K', key 'i' 'I', key 'o' 'O', key '0' ')',
   key '9' '(', no, no, key '.' '>', key '/' '?', key 'l' 'L', key ';' ':', key 'p' 'P',
   key '-' '_', no, no, no, key '\x27' '@', no, key '[' '\x7b', key '=' '+', no, no, no, no,
   key '\x0a' '\x00', key ']' '\x7d', no, key '#' '~', no, no, no, key '\x5c' '|', no, no, no, no,
   key '\x08' '\x00', no, no, no, no, key '\x11' '4', no, no, no, no, no, no, key '\x1f' '2', no,
   key '\x10' '6', key '\x1e' '8', key '\x1b' '\x00']

/-- `keyb_map[sc][shift]` -/
def entry (sc : Byte) (shift : Bool) : Byte :=
  let row := keyb_map.getD sc.toNat no
  if shift then row.2 else row.1

/-! ### The decoder (`keyboard.c`) -/

/-- `keyb_shift` and `keyb_released` -/
structure Flags where
  shift : Bool
  released : Bool

/-- The globals. -/
structure State where
  ring : RingBuf Byte KEYB_BUFFER_SIZE
  flags : Flags

/-- `keyboard_poll`: the serial port has a byte or not. -/
def poll (udr : Option Byte) (k : State) : State :=
  match udr with
  | some b => { k with ring := k.ring.push b }
  | none => k

/-- `keyboard_scancode` -/
def scancode (k : State) : Byte × State :=
  if k.ring.Empty then (0, k) else (k.ring.head, { k with ring := k.ring.pop })

/-- The `switch` of `keyboard_asc`: nothing while the loop goes on. -/
def translate (f : Flags) (sc : Byte) : Option Byte × Flags :=
  if sc = 0xf0 then (none, { f with released := true })
  else if sc = 0x12 ∨ sc = 0x59 then (none, ⟨!f.released, false⟩)
  else
    let sc := if f.released then 0 else sc
    (some (if sc = 0 ∨ KEYB_MAX_SCANCODE < sc then 0 else entry sc f.shift),
      { f with released := false })

/-- A turn of the loop of `keyboard_asc`. -/
def ascTurn (udr : Option Byte) (k : State) : Option Byte × State :=
  let (sc, k) := scancode (poll udr k)
  if sc = 0 then (some 0, k)
  else
    let (o, flags) := translate k.flags sc
    (o, { k with flags := flags })

/-- `keyboard_asc`, with what the serial port has in each turn: the result, and what is
left for the next call. -/
def keyboardAsc : List (Option Byte) → State → Option (Byte × List (Option Byte) × State)
  | [], _ => none
  | udr :: udrs, k =>
    match ascTurn udr k with
    | (some r, k) => some (r, udrs, k)
    | (none, k) => keyboardAsc udrs k

inductive Event
  | poll (udr : Option Byte)
  | ascTurn (udr : Option Byte)

/-- The byte that arrives. -/
def Event.udr : Event → Option Byte
  | .poll udr | .ascTurn udr => udr

/-- A step, with the result of `keyboard_asc` if the call ends. -/
def step (k : State) : Event → Option Byte × State
  | .poll udr => (none, poll udr k)
  | .ascTurn udr => ascTurn udr k

/-- A run: the results of the calls, and the state behind it. -/
def run (k : State) (events : List Event) : List Byte × State :=
  let (os, k) := feed step k events
  (os.filterMap id, k)

/-- No byte arrives when the ring is full. -/
def Room (k : State) (event : Event) : Prop := event.udr = none ∨ ¬ k.ring.Full

/-! ### The keys -/

/-- What a key that is not an extended one sends. -/
inductive Code
  | make (sc : Byte)
  | brk (sc : Byte)
  deriving DecidableEq

namespace Code

def sc : Code → Byte
  | make sc | brk sc => sc

def bytes : Code → List Byte
  | make sc => [sc]
  | brk sc => [0xf0, sc]

/-- 0 is no scan code, and `0xf0` is the mark of a break. -/
def Valid (c : Code) : Prop := c.sc ≠ 0 ∧ c.sc ≠ 0xf0

instance : DecidablePred Valid := fun c => inferInstanceAs (Decidable (c.sc ≠ _ ∧ c.sc ≠ _))

def IsShift (c : Code) : Prop := c.sc = 0x12 ∨ c.sc = 0x59

instance : DecidablePred IsShift := fun c => inferInstanceAs (Decidable (c.sc = _ ∨ c.sc = _))

end Code

/-- The keys that are down: none at first. -/
def down (codes : List Code) : Byte → Bool :=
  codes.foldl
    (fun d c => match c with
      | .make sc => Function.update d sc true
      | .brk sc => Function.update d sc false) fun _ => false

def shiftDown (codes : List Code) : Bool := down codes 0x12 || down codes 0x59

/-- The make codes, each with the codes before it. -/
def pressesFrom (before : List Code) : List Code → List (List Code × Byte)
  | [] => []
  | .make sc :: codes => (before, sc) :: pressesFrom (before ++ [.make sc]) codes
  | .brk sc :: codes => pressesFrom (before ++ [.brk sc]) codes

def presses (codes : List Code) : List (List Code × Byte) := pressesFrom [] codes

/-- The characters of the keys that are pressed. -/
def typed (codes : List Code) : List Byte :=
  (presses codes).map fun p => entry p.2 (shiftDown p.1)

/-- The last code of a shift key. -/
def lastShift (codes : List Code) : Option Code := (codes.filter (·.IsShift)).getLast?

/-- When a key with a character is pressed and the last code of a shift key was a break,
the other shift key is not down. -/
def ShiftSettled (codes : List Code) : Prop :=
  ∀ p ∈ presses codes, entry p.2 false ≠ 0 → ∀ sc, lastShift p.1 = some (.brk sc) →
    shiftDown p.1 = false

theorem Code.ne_zero_of_mem_bytes {c : Code} (h : c.Valid) {b : Byte} (hb : b ∈ c.bytes) :
    b ≠ 0 := by
  cases c with
  | make sc =>
    obtain rfl := List.mem_singleton.mp hb
    exact h.1
  | brk sc =>
    rcases List.mem_pair.mp hb with rfl | rfl
    · decide
    · exact h.1

/-! ### Chunks -/

theorem run_cons (k : State) (event : Event) (events : List Event) :
    run k (event :: events)
      = ((step k event).1.toList ++ (run (step k event).2 events).1,
          (run (step k event).2 events).2) := by
  rw [run, feed_cons, run]
  rcases (step k event).1 with - | r
  · rfl
  · rfl

/-- A call is a run of its turns. -/
theorem run_keyboardAsc {udrs rest : List (Option Byte)} {k k' : State} {r : Byte}
    (h : keyboardAsc udrs k = some (r, rest, k')) :
    ∃ used, udrs = used ++ rest ∧ run k (used.map .ascTurn) = ([r], k') := by
  induction udrs generalizing k with
  | nil => exact nomatch h
  | cons udr udrs ih =>
    rw [keyboardAsc] at h
    rcases hturn : ascTurn udr k with ⟨- | r', k₁⟩ <;> rw [hturn] at h
    · obtain ⟨used, rfl, hrun⟩ := ih h
      refine ⟨udr :: used, rfl, ?_⟩
      rw [List.map_cons, run_cons, step, hturn]
      exact congrArg (fun q => ([] ++ q.1, q.2)) hrun
    · cases h
      refine ⟨[udr], rfl, ?_⟩
      rw [List.map_singleton, run_cons, step, hturn]
      rfl

/-- The characters among results. -/
def characters (rs : List Byte) : List Byte := rs.filter (· ≠ 0)

theorem characters_append (rs rs' : List Byte) :
    characters (rs ++ rs') = characters rs ++ characters rs' := List.filter_append ..

/-- What the decoder makes of codes. -/
def translated (f : Flags) (bytes : List Byte) : List Byte × Flags :=
  let (os, f) := feed translate f bytes
  (characters (os.filterMap id), f)

theorem translated_cons (f : Flags) (b : Byte) (bytes : List Byte) :
    translated f (b :: bytes)
      = (characters (translate f b).1.toList ++ (translated (translate f b).2 bytes).1,
          (translated (translate f b).2 bytes).2) := by
  rw [translated, feed_cons, translated]
  rcases (translate f b).1 with - | r
  · rfl
  · exact congrArg (·, _) (characters_append [r] _)

theorem translated_append (f : Flags) (bytes bytes' : List Byte) :
    translated f (bytes ++ bytes')
      = ((translated f bytes).1 ++ (translated (translated f bytes).2 bytes').1,
          (translated (translated f bytes).2 bytes').2) := by
  induction bytes generalizing f with
  | nil => rfl
  | cons b bytes ih =>
    rw [List.cons_append, translated_cons, ih, translated_cons, List.append_assoc]

theorem contents_poll {k : State} {udr : Option Byte} (h : udr = none ∨ ¬ k.ring.Full) :
    (poll udr k).ring.contents = k.ring.contents ++ udr.toList ∧
      (poll udr k).flags = k.flags := by
  rcases udr with - | b
  · exact ⟨(List.append_nil _).symm, rfl⟩
  · exact ⟨RingBuf.contents_push (h.resolve_left nofun) b, rfl⟩

/-- **A step** translates the oldest code, if it takes one. -/
theorem step_spec {k : State} {event : Event} (hroom : Room k event)
    (hcodes : ∀ b ∈ k.ring.contents ++ event.udr.toList, b ≠ 0) :
    ∃ bytes, bytes ++ (step k event).2.ring.contents = k.ring.contents ++ event.udr.toList ∧
      translated k.flags bytes
        = (characters (step k event).1.toList, (step k event).2.flags) := by
  cases event with
  | poll udr =>
    obtain ⟨hcontents, hflags⟩ := @contents_poll k udr hroom
    exact ⟨[], hcontents, congrArg ([], ·) hflags.symm⟩
  | ascTurn udr =>
    obtain ⟨hcontents, hflags⟩ := @contents_poll k udr hroom
    rw [step, ascTurn, scancode]
    generalize poll udr k = k₁ at hcontents hflags
    by_cases hempty : k₁.ring.Empty
    · rw [if_pos hempty]
      exact ⟨[], hcontents, congrArg ([], ·) hflags.symm⟩
    · rw [if_neg hempty]
      have hpop := RingBuf.contents_pop hempty
      have hne : k₁.ring.head ≠ 0 := by
        apply hcodes
        show _ ∈ k.ring.contents ++ udr.toList
        rw [← hcontents, hpop]
        exact List.mem_cons_self
      refine ⟨[k₁.ring.head], ?_, ?_⟩
      · simp only [if_neg hne]
        exact hpop.symm.trans hcontents
      · simp only [if_neg hne]
        rw [translated_cons, ← hflags]
        exact congrArg (·, _) (List.append_nil _)

/-- The bytes that arrive. -/
def arrivals (events : List Event) : List Byte := events.flatMap fun event => event.udr.toList

/-- **A run** translates the codes one after the other. -/
theorem run_spec {k : State} {events : List Event}
    (hroom : Along (fun k event => (step k event).2) Room k events)
    (hcodes : ∀ b ∈ k.ring.contents ++ arrivals events, b ≠ 0) :
    ∃ bytes, bytes ++ (run k events).2.ring.contents = k.ring.contents ++ arrivals events ∧
      translated k.flags bytes = (characters (run k events).1, (run k events).2.flags) := by
  induction events generalizing k with
  | nil => exact ⟨[], (List.append_nil _).symm, rfl⟩
  | cons event events ih =>
    have harrive : arrivals (event :: events) = event.udr.toList ++ arrivals events := rfl
    rw [harrive, ← List.append_assoc] at hcodes
    obtain ⟨bytes, hbytes, htrans⟩ := step_spec hroom.1 fun b hb =>
      hcodes b (List.mem_append_left _ hb)
    rw [← hbytes, List.append_assoc] at hcodes
    obtain ⟨bytes', hbytes', htrans'⟩ := ih hroom.2 fun b hb =>
      hcodes b (List.mem_append_right _ hb)
    refine ⟨bytes ++ bytes', ?_, ?_⟩
    · rw [run_cons, harrive, List.append_assoc, hbytes', ← List.append_assoc, hbytes,
        List.append_assoc]
    · rw [translated_append, htrans, htrans', run_cons, characters_append]

/-! ### Codes -/

/-- Keys without a character in the first column have none in the other, and the columns
of the other keys differ; the shift keys, and what is not in the map, have none. -/
theorem entry_spec : ∀ sc : Byte, (entry sc false = 0 → entry sc true = 0) ∧
    (entry sc false ≠ 0 → entry sc false ≠ entry sc true) ∧
    (sc = 0x12 ∨ sc = 0x59 ∨ KEYB_MAX_SCANCODE < sc → entry sc false = 0) := by
  decide +kernel

theorem entry_eq_zero {sc : Byte} (h : sc = 0x12 ∨ sc = 0x59 ∨ KEYB_MAX_SCANCODE < sc)
    (shift : Bool) : entry sc shift = 0 := by
  obtain ⟨hzero, -, hnone⟩ := entry_spec sc
  cases shift with
  | false => exact hnone h
  | true => exact hzero (hnone h)

/-- The bit of the decoder: the last code of a shift key was a make. -/
def shiftBit (codes : List Code) : Bool :=
  match lastShift codes with
  | some (.make _) => true
  | _ => false

theorem lastShift_concat (codes : List Code) (c : Code) :
    lastShift (codes ++ [c]) = if c.IsShift then some c else lastShift codes := by
  rw [lastShift, List.filter_append]
  by_cases h : c.IsShift
  · have hfilter : [c].filter (·.IsShift) = [c] :=
      List.filter_eq_self.mpr fun c' hc' => by simpa [List.mem_singleton.mp hc'] using h
    rw [if_pos h, hfilter, List.getLast?_concat]
  · have hfilter : [c].filter (·.IsShift) = [] :=
      List.filter_eq_nil_iff.mpr fun c' hc' => by simpa [List.mem_singleton.mp hc'] using h
    rw [if_neg h, hfilter, List.append_nil]
    rfl

theorem shiftBit_make (codes : List Code) (sc : Byte) :
    shiftBit (codes ++ [.make sc]) = if sc = 0x12 ∨ sc = 0x59 then true else shiftBit codes := by
  rw [shiftBit, lastShift_concat]
  by_cases h : sc = 0x12 ∨ sc = 0x59
  · rw [if_pos h, if_pos (show (Code.make sc).IsShift from h)]
  · rw [if_neg h, if_neg (show ¬ (Code.make sc).IsShift from h)]
    rfl

theorem shiftBit_brk (codes : List Code) (sc : Byte) :
    shiftBit (codes ++ [.brk sc]) = if sc = 0x12 ∨ sc = 0x59 then false else shiftBit codes := by
  rw [shiftBit, lastShift_concat]
  by_cases h : sc = 0x12 ∨ sc = 0x59
  · rw [if_pos h, if_pos (show (Code.brk sc).IsShift from h)]
  · rw [if_neg h, if_neg (show ¬ (Code.brk sc).IsShift from h)]
    rfl

theorem translate_shift {sc : Byte} (h : sc = 0x12 ∨ sc = 0x59) (f : Flags) :
    translate f sc = (none, ⟨!f.released, false⟩) := by
  have hmark : sc ≠ 0xf0 := by
    rcases h with rfl | rfl <;> decide
  rw [translate, if_neg hmark, if_pos h]

theorem translate_key {sc : Byte} (hzero : sc ≠ 0) (hmark : sc ≠ 0xf0)
    (h : ¬ (sc = 0x12 ∨ sc = 0x59)) (f : Flags) :
    translate f sc
      = (some (if f.released then 0 else entry sc f.shift), { f with released := false }) := by
  obtain ⟨shift, released⟩ := f
  rw [translate, if_neg hmark, if_neg h]
  cases released with
  | true => rfl
  | false =>
    by_cases hmax : KEYB_MAX_SCANCODE < sc
    · have hentry := entry_eq_zero (.inr (.inr hmax)) shift
      simp [hmax, hentry]
    · have hmap : ¬ (sc = 0 ∨ KEYB_MAX_SCANCODE < sc) := not_or.mpr ⟨hzero, hmax⟩
      simp only [Bool.false_eq_true, if_false, if_neg hmap]

theorem translated_make {sc : Byte} (hvalid : (Code.make sc).Valid) (before : List Code) :
    translated ⟨shiftBit before, false⟩ [sc]
      = (characters [entry sc (shiftBit before)], ⟨shiftBit (before ++ [.make sc]), false⟩) := by
  rw [shiftBit_make, translated_cons]
  by_cases h : sc = 0x12 ∨ sc = 0x59
  · rw [if_pos h, translate_shift h, entry_eq_zero (or_assoc.mp (.inl h))]
    rfl
  · rw [if_neg h, @translate_key sc hvalid.1 hvalid.2 h]
    exact congrArg (·, _) (List.append_nil _)

theorem translated_brk {sc : Byte} (hvalid : (Code.brk sc).Valid) (before : List Code) :
    translated ⟨shiftBit before, false⟩ [0xf0, sc]
      = ([], ⟨shiftBit (before ++ [.brk sc]), false⟩) := by
  have hmark : ∀ f, translate f 0xf0 = (none, { f with released := true }) := fun _ => rfl
  rw [shiftBit_brk, translated_cons, translated_cons, hmark]
  by_cases h : sc = 0x12 ∨ sc = 0x59
  · rw [if_pos h, translate_shift h]
    rfl
  · rw [if_neg h, @translate_key sc hvalid.1 hvalid.2 h]
    rfl

/-- **The decoder** types with its bit. -/
theorem translated_codes {codes : List Code} (hvalid : ∀ c ∈ codes, c.Valid)
    (before : List Code) :
    (translated ⟨shiftBit before, false⟩ (codes.flatMap Code.bytes)).1
      = characters ((pressesFrom before codes).map fun p => entry p.2 (shiftBit p.1)) := by
  induction codes generalizing before with
  | nil => rfl
  | cons c codes ih =>
    have hc : c.Valid := hvalid c List.mem_cons_self
    have ih' := ih (fun c' hc' => hvalid c' (List.mem_cons_of_mem c hc')) (before ++ [c])
    cases c with
    | make sc =>
      rw [List.flatMap_cons, translated_append, Code.bytes, translated_make hc, ih',
        ← characters_append]
      rfl
    | brk sc =>
      rw [List.flatMap_cons, translated_append, Code.bytes, translated_brk hc, ih']
      rfl

/-! ### What is really held -/

theorem shiftDown_make (codes : List Code) {sc : Byte} (h : sc = 0x12 ∨ sc = 0x59) :
    shiftDown (codes ++ [.make sc]) = true := by
  have hdown : down (codes ++ [.make sc]) sc = true := by
    rw [down, List.foldl_concat]
    exact Function.update_self ..
  rcases h with rfl | rfl
  · rw [shiftDown, hdown, Bool.true_or]
  · rw [shiftDown, hdown, Bool.or_true]

theorem shiftDown_other (codes : List Code) {c : Code} (h : ¬ c.IsShift) :
    shiftDown (codes ++ [c]) = shiftDown codes := by
  have hdown : ∀ sc, c.sc ≠ sc → down (codes ++ [c]) sc = down codes sc := by
    intro sc hne
    rw [down, List.foldl_concat]
    cases c with
    | make sc' => exact Function.update_of_ne hne.symm _ _
    | brk sc' => exact Function.update_of_ne hne.symm _ _
  rw [shiftDown, hdown 0x12 fun heq => h (.inl heq), hdown 0x59 fun heq => h (.inr heq)]
  rfl

/-- A shift key whose make was the last code of a shift key is down, and without such a
code none is. -/
theorem shiftDown_lastShift (codes : List Code) :
    (∀ sc, lastShift codes = some (.make sc) → shiftDown codes = true) ∧
      (lastShift codes = none → shiftDown codes = false) := by
  induction codes using List.reverseRecOn with
  | nil => exact ⟨nofun, fun _ => rfl⟩
  | append_singleton codes c ih =>
    rw [lastShift_concat]
    by_cases h : c.IsShift
    · rw [if_pos h]
      refine ⟨?_, nofun⟩
      rintro sc ⟨⟩
      exact shiftDown_make codes h
    · rw [if_neg h, shiftDown_other codes h]
      exact ih

theorem shiftDown_of_shiftBit {codes : List Code} (h : shiftBit codes = true) :
    shiftDown codes = true := by
  rw [shiftBit] at h
  split at h
  · next sc hsc => exact (shiftDown_lastShift codes).1 sc hsc
  · exact absurd h Bool.false_ne_true

/-- The bit is what it should be, unless the last code of a shift key was a break. -/
theorem shiftBit_eq_iff (codes : List Code) :
    shiftBit codes = shiftDown codes ↔
      ∀ sc, lastShift codes = some (.brk sc) → shiftDown codes = false := by
  obtain ⟨hmake, hnone⟩ := shiftDown_lastShift codes
  rw [shiftBit]
  rcases h : lastShift codes with - | ⟨sc⟩ | ⟨sc⟩
  · exact ⟨fun _ => nofun, fun _ => (hnone h).symm⟩
  · exact ⟨fun _ => nofun, fun _ => (hmake sc h).symm⟩
  · exact ⟨fun hbit _ _ => hbit.symm, fun hbrk => (hbrk sc rfl).symm⟩

/-! ### Comparing the characters -/

theorem characters_cons (r : Byte) (rs : List Byte) :
    characters (r :: rs) = if r = 0 then characters rs else r :: characters rs := by
  rw [characters, List.filter_cons]
  by_cases h : r = 0
  · rw [if_pos h, if_neg (by simpa using h)]
    rfl
  · rw [if_neg h, if_pos (by simpa using h)]
    rfl

section Compare

variable {ι : Type} {l : List ι} {f g : ι → Byte} (hfg : ∀ i ∈ l, g i ≠ 0 → f i ≠ 0)
include hfg

theorem length_characters_le : (characters (l.map g)).length ≤ (characters (l.map f)).length := by
  induction l with
  | nil => exact le_rfl
  | cons i l ih =>
    have hle := ih fun j hj => hfg j (List.mem_cons_of_mem i hj)
    rw [List.map_cons, List.map_cons, characters_cons, characters_cons]
    split
    · split
      · exact hle
      · exact hle.trans (Nat.le_succ _)
    · next hg =>
      rw [if_neg (hfg i List.mem_cons_self hg)]
      exact Nat.succ_le_succ hle

/-- Two lists, where the first has a character at every place where the second has one:
if the characters are the same, they are so place by place. -/
theorem characters_map_eq_iff :
    characters (l.map f) = characters (l.map g) ↔ ∀ i ∈ l, f i = g i := by
  refine ⟨fun h => ?_, fun h => congrArg characters (List.map_congr_left h)⟩
  induction l with
  | nil => exact nofun
  | cons i l ih =>
    have hfg' : ∀ j ∈ l, g j ≠ 0 → f j ≠ 0 := fun j hj => hfg j (List.mem_cons_of_mem i hj)
    have hhead := hfg i List.mem_cons_self
    rw [List.map_cons, List.map_cons, characters_cons, characters_cons] at h
    rw [List.forall_mem_cons]
    by_cases hg : g i = 0
    · rw [if_pos hg] at h
      by_cases hf : f i = 0
      · rw [if_pos hf] at h
        exact ⟨hf.trans hg.symm, ih hfg' h⟩
      · -- a character too many is never made up for
        rw [if_neg hf] at h
        have hle := length_characters_le hfg'
        have hlen := congrArg List.length h
        rw [List.length_cons] at hlen
        omega
    · rw [if_neg hg, if_neg (hhead hg)] at h
      obtain ⟨heq, hrest⟩ := List.cons.inj h
      exact ⟨heq, ih hfg' hrest⟩

end Compare

/-- A key shows the bit if it has a character. -/
theorem entry_eq_iff (sc : Byte) (bit held : Bool) :
    entry sc bit = entry sc held ↔ (entry sc false ≠ 0 → bit = held) := by
  obtain ⟨hzero, hdiff, -⟩ := entry_spec sc
  by_cases hsc : entry sc false = 0
  · have hall : ∀ shift, entry sc shift = 0 := by
      intro shift
      cases shift with
      | false => exact hsc
      | true => exact hzero hsc
    rw [hall bit, hall held]
    exact ⟨fun _ h => absurd hsc h, fun _ => rfl⟩
  · have hne := hdiff hsc
    cases bit <;> cases held
    · exact ⟨fun _ _ => rfl, fun _ => rfl⟩
    · exact ⟨fun h => absurd h hne, fun h => absurd (h hsc) Bool.false_ne_true⟩
    · exact ⟨fun h => absurd h.symm hne, fun h => absurd (h hsc).symm Bool.false_ne_true⟩
    · exact ⟨fun _ _ => rfl, fun _ => rfl⟩

theorem typed_eq_iff (codes : List Code) :
    characters ((presses codes).map fun p => entry p.2 (shiftBit p.1)) = characters (typed codes) ↔
      ShiftSettled codes := by
  have hfg : ∀ p ∈ presses codes, entry p.2 (shiftDown p.1) ≠ 0 → entry p.2 (shiftBit p.1) ≠ 0 := by
    rintro ⟨before, sc⟩ -
    show entry sc (shiftDown before) ≠ 0 → entry sc (shiftBit before) ≠ 0
    intro hne hzero
    cases hbit : shiftBit before with
    | false =>
      rw [hbit] at hzero
      have hentry : ∀ shift, entry sc shift = 0 := fun shift =>
        ((entry_eq_iff sc shift false).mpr fun h => absurd hzero h).trans hzero
      exact hne (hentry _)
    | true =>
      rw [hbit, ← shiftDown_of_shiftBit hbit] at hzero
      exact hne hzero
  rw [typed, characters_map_eq_iff hfg]
  refine forall₂_congr fun p _ => ?_
  rw [entry_eq_iff, shiftBit_eq_iff]

/-- **The decoder follows the keys that are held** exactly if no key with a character is
pressed while a shift key is down and the other one was released last, however the codes
are spread over the calls. -/
theorem keyboard_iff {k : State} (hempty : k.ring.Empty) (hflags : k.flags = ⟨false, false⟩)
    {codes : List Code} (hvalid : ∀ c ∈ codes, c.Valid) {events : List Event}
    (harrive : arrivals events = codes.flatMap Code.bytes)
    (hroom : Along (fun k event => (step k event).2) Room k events)
    (hread : (run k events).2.ring.Empty) :
    characters (run k events).1 = characters (typed codes) ↔ ShiftSettled codes := by
  have hstart := (RingBuf.contents_eq_nil_iff k.ring).mpr hempty
  have hend := (RingBuf.contents_eq_nil_iff (run k events).2.ring).mpr hread
  have hcodes : ∀ b ∈ k.ring.contents ++ arrivals events, b ≠ 0 := by
    rw [hstart, List.nil_append, harrive]
    intro b hb
    obtain ⟨c, hc, hb⟩ := List.mem_flatMap.mp hb
    exact Code.ne_zero_of_mem_bytes (hvalid c hc) hb
  obtain ⟨bytes, hbytes, htrans⟩ := run_spec hroom hcodes
  rw [hstart, hend, List.append_nil, List.nil_append, harrive] at hbytes
  have htyped := translated_codes hvalid []
  rw [← hbytes] at htyped
  have hresults : characters (run k events).1
      = characters ((presses codes).map fun p => entry p.2 (shiftBit p.1)) := by
    rw [hflags] at htrans
    exact (congrArg Prod.fst htrans).symm.trans htyped
  rw [hresults]
  exact typed_eq_iff codes

/-- The keyboard after a reset. -/
def reset : State := ⟨⟨fun _ => 0, 0, 0, by decide, by decide⟩, ⟨false, false⟩⟩

/-- Both shift keys, and `A`. -/
theorem keyboard_iff_shifts :
    let codes : List Code := [.make 0x12, .make 0x59, .make 0x1c]
    let events : List Event := [.poll (some 0x12), .ascTurn (some 0x59), .ascTurn (some 0x1c),
      .ascTurn none]
    characters (run reset events).1 = characters (typed codes) ↔ ShiftSettled codes :=
  @keyboard_iff reset (by decide) rfl _ (by decide) _ rfl
    ⟨.inr (by decide), .inr (by decide), .inr (by decide), .inl rfl, trivial⟩ (by decide)

/-- Both shift keys are pressed and the first one is released: `A` is typed as `a`. -/
theorem shift_lost :
    let codes : List Code := [.make 0x12, .make 0x59, .brk 0x12, .make 0x1c]
    let events : List Event := (codes.flatMap Code.bytes).map fun b => .ascTurn (some b)
    (run reset events).1 = [0x61] ∧ characters (typed codes) = [0x41] ∧
      (run reset events).2.ring.Empty := by
  decide

end Keyboard

end Dan64
