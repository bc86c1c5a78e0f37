import HackPlatform.Proofs.Stream.Order

/-!
# Streams deliver, or they have failed

A stream that was given bytes for a sink has passed a first part of them on (`Delivers`). As long as it has not failed, the
others wait in its buffer. Once it has failed some bytes are lost, and no later write or flush changes that. Nothing of
the sink but its contents changes.
-/

namespace HackPlatform.Stream

theorem Sink.write_frame (s : Sink) (p : Bytes) :
    (s.write p).1 = { s with stored := (s.write p).1.stored } ∧
      ((s.write p).2.fault ≠ none → (s.write p).2.count < p.length) := by
  unfold write
  split
  · simp
  · simp only
    split
    · simp
    · rename_i hlong
      exact ⟨rfl, fun _ => Nat.lt_of_not_le hlong⟩

theorem Sink.close_frame (s : Sink) (stored : Array UInt8) :
    { s with stored }.close = ({ s.close.1 with stored }, s.close.2) := by
  unfold close
  split <;> rfl

namespace Buffered

/-- The stream was given these bytes for a sink that was `origin` at first. -/
structure Delivers (origin : Sink) (given : Bytes) (b : Buffered) : Prop where
  frame : b.sink = { origin with stored := b.sink.stored }
  part : b.sink.contents <+: given
  taken : b.fault = none → b.taken = given
  lost : b.fault ≠ none → b.sink.contents.length < given.length

namespace Delivers

variable {origin : Sink} {given : Bytes} {b : Buffered}

theorem intact (hframe : b.sink = { origin with stored := b.sink.stored }) (hfault : b.fault = none)
    (htaken : b.taken = given) : Delivers origin given b where
  frame := hframe
  part := ⟨b.buffer.toList, htaken⟩
  taken _ := htaken
  lost h := absurd hfault h

theorem broken (hframe : b.sink = { origin with stored := b.sink.stored }) (hfault : b.fault ≠ none)
    (hpart : b.sink.contents <+: given) (hlost : b.sink.contents.length < given.length) : Delivers origin given b where
  frame := hframe
  part := hpart
  taken h := absurd h hfault
  lost _ := hlost

theorem extend (h : Delivers origin given b) (hfault : b.fault ≠ none) (p : Bytes) : Delivers origin (given ++ p) b :=
  .broken h.frame hfault (h.part.trans (List.prefix_append _ _)) (by
    have hlost := h.lost hfault
    rw [List.length_append]
    omega)

end Delivers

theorem buffer_of_flush {b : Buffered} (h : b.fault = none) (hfailed : b.flush.2 ≠ none) : 0 < b.flush.1.buffer.size := by
  obtain ⟨-, hcount⟩ := b.sink.write_frame b.buffer.toList
  unfold flush at hfailed ⊢
  simp only [h] at hfailed ⊢
  by_cases hempty : b.buffer.isEmpty
  · simp [hempty] at hfailed
  · simp only [hempty, Bool.false_eq_true, if_false] at hfailed ⊢
    generalize b.sink.write b.buffer.toList = result at *
    obtain ⟨sink, count, fault⟩ := result
    cases fault with
    | some f =>
      have hrest := hcount (by simp)
      simp only [Array.length_toList] at hrest
      simp only [Array.size_extract]
      omega
    | none =>
      by_cases hshort : count < b.buffer.size
      · simp only [hshort, if_true, Array.size_extract]
        omega
      · simp [hshort] at hfailed

theorem flush_frame (b : Buffered) : b.flush.1.sink = { b.sink with stored := b.flush.1.sink.stored } := by
  obtain ⟨hframe, -⟩ := b.sink.write_frame b.buffer.toList
  unfold flush
  split
  · rfl
  · split
    · rfl
    · simp only
      split
      · exact hframe
      · exact hframe

variable {origin : Sink} {given : Bytes} {b : Buffered}

theorem Delivers.flush (h : Delivers origin given b) : Delivers origin given b.flush.1 := by
  have hframe : b.flush.1.sink = { origin with stored := b.flush.1.sink.stored } := by
    rw [b.flush_frame, h.frame]
  obtain ⟨htaken, hafter, -⟩ := b.flush_spec
  cases hfault : b.fault with
  | some f => rwa [flush_of_fault hfault]
  | none =>
    have hsplit : b.flush.1.sink.contents ++ b.flush.1.buffer.toList = given := htaken.trans (h.taken hfault)
    by_cases hanswer : b.flush.2 = none
    · exact .intact hframe (hafter.trans hanswer) hsplit
    · have hwaits := buffer_of_flush hfault hanswer
      refine .broken hframe (hafter ▸ hanswer) ⟨_, hsplit⟩ ?_
      rw [← hsplit, List.length_append, b.flush.1.buffer.length_toList]
      omega

theorem Delivers.writeEmpty (h : Delivers origin given b) (hfault : b.fault = none) (hempty : b.buffer = #[]) (p : Bytes) :
    Delivers origin (given ++ p) (b.writeEmpty p).1 := by
  obtain ⟨hframe, hlost⟩ := b.sink.write_frame p
  obtain ⟨hstored, -⟩ := b.sink.write_spec p
  have hcontents : b.sink.contents = given := by simpa [Buffered.taken, hempty] using h.taken hfault
  have hframe' : (b.sink.write p).1 = { origin with stored := (b.sink.write p).1.stored } := by rw [hframe, h.frame]
  unfold Buffered.writeEmpty
  split
  · exact .intact h.frame hfault (by simp [Buffered.taken, hempty, hcontents])
  · generalize b.sink.write p = result at *
    obtain ⟨sink, count, fault⟩ := result
    -- what the sink took of a write that went to it at once, and what it did not take
    have hpart : sink.contents = given ++ p.take count := hcontents ▸ hstored
    have hshorter : count < p.length → sink.contents.length < (given ++ p).length := by
      intro hlt
      rw [hpart, List.length_append, List.length_append, List.length_take]
      omega
    have hprefix : sink.contents <+: given ++ p := hpart ▸ (List.prefix_append_right_inj _).mpr (List.take_prefix _ _)
    cases fault with
    | some f => exact .broken hframe' (by simp) hprefix (hshorter (hlost (by simp)))
    | none =>
      by_cases hfits : (p.drop count).length ≤ capacity
      · simp only [hfits, if_true]
        exact .intact hframe' hfault (by simp [Buffered.taken, hempty, hpart])
      · simp only [hfits, if_false]
        refine .broken hframe' (by simp) hprefix (hshorter ?_)
        rw [List.length_drop] at hfits
        omega

theorem Delivers.write (h : Delivers origin given b) (p : Bytes) : Delivers origin (given ++ p) (b.write p).1 := by
  cases hfault : b.fault with
  | some f =>
    rw [write_of_fault p hfault]
    exact h.extend (by simp [hfault]) p
  | none =>
    have htaken := h.taken hfault
    unfold Buffered.write
    simp only [hfault]
    split
    · exact .intact h.frame rfl (by simp [← htaken, Buffered.taken])
    · split
      · rename_i hempty
        exact h.writeEmpty hfault (by simpa using hempty) p
      · -- the buffer is filled up and flushed, and the rest is written to the empty buffer
        generalize capacity - b.buffer.size = free
        have hfilled : Delivers origin (given ++ p.take free) { sink := b.sink, buffer := b.buffer ++ p.take free } :=
          .intact h.frame rfl (by simp [← htaken, Buffered.taken])
        have hflushed := hfilled.flush
        obtain ⟨-, hafter, -, hempty, -⟩ := flush_spec { sink := b.sink, buffer := b.buffer ++ p.take free }
        have hgiven : given ++ p.take free ++ p.drop free = given ++ p := by
          rw [List.append_assoc, List.take_append_drop]
        generalize Buffered.flush { sink := b.sink, buffer := b.buffer ++ p.take free } = result at *
        obtain ⟨flushed, fault⟩ := result
        rw [← hgiven]
        cases fault with
        | some f => exact hflushed.extend (fun hnone => absurd (hafter.symm.trans hnone) (by simp)) _
        | none => exact hflushed.writeEmpty hafter (hempty rfl) _

theorem Delivers.close_sink (h : Delivers origin given b) :
    b.sink.close = ({ origin.close.1 with stored := b.sink.stored }, origin.close.2) := by
  rw [h.frame, Sink.close_frame]

theorem Delivers.close (h : Delivers origin given b) : Delivers origin.close.1 given { b with sink := b.sink.close.1 } := by
  rw [h.close_sink]
  exact ⟨rfl, h.part, h.taken, h.lost⟩

end Buffered

namespace Guarded

/-- What a guarded stream was given is what the stream below was given, and the guard reports no failure of its own. -/
structure Delivers (origin : Sink) (given : Bytes) (g : Guarded Buffered) : Prop where
  outlet : g.outlet.Delivers origin given
  failure : g.failure ≠ none → g.outlet.fault ≠ none

namespace Delivers

variable {origin : Sink} {given : Bytes} {g : Guarded Buffered}

theorem intact_iff (h : Delivers origin given g) : g.Intact ↔ g.outlet.fault = none := by
  refine ⟨And.right, fun hfault => ⟨?_, hfault⟩⟩
  by_cases hfailure : g.failure = none
  · exact hfailure
  · exact absurd hfault (h.failure hfailure)

theorem write (h : Delivers origin given g) (p : Bytes) : Delivers origin (given ++ p) (g.write p).1 := by
  cases hfailure : g.failure with
  | some e =>
    have hsame : (g.write p).1 = g := by simp [Guarded.write, hfailure]
    rw [hsame]
    exact ⟨h.outlet.extend (h.failure (by simp [hfailure])) p, h.failure⟩
  | none =>
    obtain ⟨houtlet, hsound⟩ := Guarded.write_of_none hfailure p
    have hwrite : Outlet.write g.outlet p = g.outlet.write p := rfl
    rw [hwrite] at houtlet hsound
    refine ⟨houtlet ▸ h.outlet.write p, fun hfailed => ?_⟩
    rw [houtlet]
    cases hfault : g.outlet.fault with
    | some f => simp [Buffered.write_of_fault p hfault, hfault]
    | none =>
      have htook := Buffered.write_took p hfault
      intro hnone
      have hreceipt := htook.fault.symm.trans hnone
      exact hfailed (hsound.mpr ⟨hreceipt, Nat.le_of_eq (htook.all hreceipt).2.symm⟩)

end Delivers

end Guarded

end HackPlatform.Stream
