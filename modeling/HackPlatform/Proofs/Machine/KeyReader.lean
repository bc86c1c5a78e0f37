import Mathlib.Data.List.DropRight
import HackPlatform.Machine.Keyboard

/-!
# Keys are polled at most once

The reader of the input and the program that polls share one cell, the pending key. Their steps are atomic and may come
in any order (`Run`). The cell holds the last key that was read since the last poll (`Run.pending_eq`), so that is what the
next poll gives. Hence no key is given twice or out of order: behind the keys that were given, there is still a place
for the pending one among the keys that were read (`Run.sublist`).
-/

namespace HackPlatform.KeyReader

/-! ## Runs -/

/-- What is seen of a step. -/
inductive Event where
  /-- A character was read. -/
  | read (c : Int)
  /-- The end of the input was reached. -/
  | ended
  /-- A poll was answered. -/
  | polled (key : Word)

/-- The character that was read. -/
def Event.character? : Event → Option Int
  | read c => some c
  | _ => none

/-- The answer to a poll. -/
def Event.answer? : Event → Option Word
  | polled key => some key
  | _ => none

/-- Both parties: how far the input was read, and the key reader. -/
structure Feed where
  count : Nat := 0
  reader : KeyReader := {}

/-- One step of one of the parties. The input gives its characters by their numbers, and none behind the last one if it
ends. Once it has ended, only polls are left. -/
inductive Step (input : Nat → Option Int) : Feed → Event → Feed → Prop where
  | read {s : Feed} {c : Int} (next : input s.count = some c) :
      Step input s (.read c) { count := s.count + 1, reader := s.reader.take c }
  | ended {s : Feed} (exhausted : input s.count = none) (running : s.reader.ended = false) :
      Step input s .ended { s with reader := s.reader.finish }
  | polled {s : Feed} : Step input s (.polled s.reader.poll.1) { s with reader := s.reader.poll.2 }

/-- Any interleaving of steps of the two parties, with what was seen. -/
inductive Run (input : Nat → Option Int) : List Event → Feed → Prop where
  | start : Run input [] {}
  | step {trace : List Event} {s t : Feed} {e : Event} (before : Run input trace s) (last : Step input s e t) :
      Run input (trace ++ [e]) t

theorem run_concat {input : Nat → Option Int} {trace : List Event} {e : Event} {t : Feed} (h : Run input (trace ++ [e]) t) :
    ∃ s, Run input trace s ∧ Step input s e t := by
  generalize hall : trace ++ [e] = all at h
  cases h with
  | start => simp at hall
  | step before last =>
    obtain ⟨rfl, rfl⟩ := List.append_singleton_inj.mp hall
    exact ⟨_, before, last⟩

theorem run_append {input : Nat → Option Int} {trace later : List Event} {t : Feed} (h : Run input (trace ++ later) t) :
    ∃ s, Run input trace s := by
  induction later using List.reverseRecOn generalizing t with
  | nil => exact ⟨t, by simpa using h⟩
  | append_singleton later e ih =>
    rw [← List.append_assoc] at h
    obtain ⟨s, hs, -⟩ := run_concat h
    exact ih hs

/-! ## Keys -/

/-- The key codes of characters, those without one left out. -/
def keys (characters : List Int) : List Word := (characters.map Key.code).filter (· ≠ 0)

/-- The keys that polls were answered with. -/
def given (trace : List Event) : List Word := (trace.filterMap Event.answer?).filter (· ≠ 0)

/-- The events since the last poll. -/
def sincePoll (trace : List Event) : List Event := trace.rtakeWhile (·.answer?.isNone)

/-- The last key that was read since the last poll, or zero if there was none. -/
def lastKey (trace : List Event) : Word := (keys ((sincePoll trace).filterMap Event.character?)).getLast?.getD 0

theorem keys_concat (characters : List Int) (c : Int) :
    keys (characters ++ [c]) = if Key.code c = 0 then keys characters else keys characters ++ [Key.code c] := by
  by_cases hcode : Key.code c = 0 <;> simp [keys, hcode]

theorem lastKey_read (trace : List Event) (c : Int) :
    lastKey (trace ++ [.read c]) = if Key.code c = 0 then lastKey trace else Key.code c := by
  have hsince : sincePoll (trace ++ [.read c]) = sincePoll trace ++ [.read c] := List.rtakeWhile_concat_pos _ _ _ rfl
  rw [lastKey, hsince, List.filterMap_append, show [Event.read c].filterMap Event.character? = [c] from rfl, keys_concat]
  by_cases hcode : Key.code c = 0
  · rw [if_pos hcode, if_pos hcode]
    rfl
  · rw [if_neg hcode, if_neg hcode]
    simp

theorem lastKey_ended (trace : List Event) : lastKey (trace ++ [.ended]) = lastKey trace := by
  have hsince : sincePoll (trace ++ [.ended]) = sincePoll trace ++ [.ended] := List.rtakeWhile_concat_pos _ _ _ rfl
  rw [lastKey, hsince, List.filterMap_append, show [Event.ended].filterMap Event.character? = [] from rfl, List.append_nil]
  rfl

theorem lastKey_polled (trace : List Event) (key : Word) : lastKey (trace ++ [.polled key]) = 0 := by
  have hsince : sincePoll (trace ++ [.polled key]) = [] := List.rtakeWhile_concat_neg _ _ _ (by simp [Event.answer?])
  rw [lastKey, hsince]
  rfl

/-! ## What a run gives -/

variable {input : Nat → Option Int} {trace : List Event} {s : Feed}

theorem Run.characters (h : Run input trace s) : trace.filterMap Event.character? = (List.range s.count).filterMap input := by
  induction h with
  | start => rfl
  | step before last ih =>
    rw [List.filterMap_append, ih]
    cases last with
    | read next => simp [Event.character?, List.range_succ, next]
    | ended exhausted running => simp [Event.character?]
    | polled => simp [Event.character?]

/-- The pending key is the last one that was read since the last poll. -/
theorem Run.pending_eq (h : Run input trace s) : s.reader.pending = lastKey trace := by
  induction h with
  | start => rfl
  | step before last ih =>
    cases last with
    | @read c next =>
      rw [lastKey_read, ← ih]
      unfold take
      split <;> rfl
    | ended exhausted running =>
      rw [lastKey_ended, ← ih]
      rfl
    | polled =>
      rw [lastKey_polled]
      rfl

theorem given_polled (trace : List Event) (key : Word) :
    given (trace ++ [.polled key]) = given trace ++ [key].filter (· ≠ 0) := by
  rw [given, List.filterMap_append, List.filter_append]
  rfl

theorem given_of_answer? {e : Event} (h : e.answer? = none) (trace : List Event) : given (trace ++ [e]) = given trace := by
  simp [given, h]

/-- The keys that were given, and behind them the pending one, are found in this order among those that were read. -/
theorem Run.sublist (h : Run input trace s) :
    (given trace ++ [s.reader.pending].filter (· ≠ 0)).Sublist (keys (trace.filterMap Event.character?)) := by
  induction h with
  | start => exact List.Sublist.refl _
  | step before last ih =>
    rw [List.filterMap_append]
    cases last with
    | @read c next =>
      rw [given_of_answer? rfl, show [Event.read c].filterMap Event.character? = [c] from rfl, keys_concat]
      by_cases hcode : Key.code c = 0
      · simpa only [take, if_pos hcode] using ih
      · -- the new key takes the place of the pending one
        have hgiven := (List.sublist_append_left _ _).trans ih
        simpa [take, hcode] using hgiven.append_right [Key.code c]
    | ended exhausted running =>
      rw [given_of_answer? rfl, show [Event.ended].filterMap Event.character? = [] from rfl, List.append_nil]
      exact ih
    | polled =>
      rw [given_polled, show [Event.polled _].filterMap Event.character? = [] from rfl, List.append_nil]
      simpa [poll] using ih

/-- Keys are neither given twice nor given late. In every interleaving of polls with reading an input, which may end or
not, each poll was answered with the last key that was read since the poll before it, or with zero if there was none, and
so is a poll that comes next. The keys that were given are found in the input in this order, each at a place of its own. -/
theorem keys_given_once (h : Run input trace s) :
    (∀ before key after, trace = before ++ .polled key :: after → key = lastKey before) ∧
      (∃ t, Run input (trace ++ [.polled (lastKey trace)]) t) ∧
      (given trace).Sublist (keys ((List.range s.count).filterMap input)) := by
  refine ⟨?_, ?_, ?_⟩
  · rintro before key after rfl
    rw [List.append_cons] at h
    obtain ⟨t, ht⟩ := run_append h
    obtain ⟨r, hr, hstep⟩ := run_concat ht
    cases hstep with
    | polled => exact hr.pending_eq
  · rw [← h.pending_eq]
    exact ⟨_, h.step .polled⟩
  · rw [← h.characters]
    exact (List.sublist_append_left _ _).trans h.sublist

/-- A letter is overwritten, another character has no key code, and polls go on behind the end of the input. -/
theorem keys_given_once_new_line :
    let input : Nat → Option Int := fun n => [97, 98, 233, 10][n]?
    let trace : List Event :=
      [.read 97, .read 98, .read 233, .polled 98, .polled 0, .read 10, .ended, .polled Key.newLine, .polled 0]
    (∃ s, Run input trace s ∧ s.count = 4) ∧ lastKey (trace.take 7) = Key.newLine ∧ given trace = [98, Key.newLine] ∧
      [98, Key.newLine].Sublist (keys [97, 98, 233, 10]) := by
  intro input trace
  have hrun : ∃ s, Run input trace s ∧ s.count = 4 :=
    ⟨_, ((((((((Run.start.step (.read rfl)).step (.read rfl)).step (.read rfl)).step .polled).step .polled).step
      (.read rfl)).step (.ended rfl rfl)).step .polled).step .polled, rfl⟩
  obtain ⟨s, hs, hcount⟩ := hrun
  obtain ⟨hlast, -, hgiven⟩ := keys_given_once hs
  rw [hcount] at hgiven
  exact ⟨⟨s, hs, hcount⟩, (hlast (trace.take 7) _ [.polled 0] rfl).symm, rfl, hgiven⟩

end HackPlatform.KeyReader
