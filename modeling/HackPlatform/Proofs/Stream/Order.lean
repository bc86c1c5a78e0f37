import HackPlatform.Stream.Buffered
import HackPlatform.Stream.Guarded

/-!
# Streams keep the order of bytes

A buffered stream has taken the bytes that reached its sink and those that wait in the buffer (`Buffered.taken`). A write adds
a first part of its bytes to them, and all of its bytes if it reports no fault; a flush moves bytes without adding any. A
sink without a limit never causes a fault. A guarded stream passes this on, and once one of the layers has failed
nothing is added any more (`Guarded.write_of_not_intact`). Texts that are written straight to a sink that has room for them all
get there (`emit_of_room`).
-/

namespace HackPlatform.Stream

/-- A sink stores a first part of the bytes that it is offered, and counts them. Without a limit it stores them all. -/
theorem Sink.write_spec (s : Sink) (p : Bytes) :
    (s.write p).1.contents = s.contents ++ p.take (s.write p).2.count ∧ (s.write p).2.count ≤ p.length ∧
      (s.write p).1.limit = s.limit ∧ (s.limit = none → (s.write p).2 = ⟨p.length, none⟩) := by
  unfold write
  cases hlimit : s.limit with
  | none => simp [contents]
  | some limit =>
    simp only
    split
    · simp [contents]
    · refine ⟨by simp [contents], ?_, rfl, by simp⟩
      simp only
      omega

/-- The sink can take this many bytes more. -/
def Sink.HasRoom (s : Sink) (n : Nat) : Prop := ∀ limit, s.limit = some limit → s.stored.size + n ≤ limit

theorem Sink.write_of_room {s : Sink} {p : Bytes} (h : s.HasRoom p.length) :
    s.write p = ({ s with stored := s.stored ++ p }, ⟨p.length, none⟩) := by
  unfold write
  split
  · rfl
  · rename_i limit hlimit
    have hfits := h limit hlimit
    rw [if_pos (by omega)]

theorem Sink.close_spec (s : Sink) : s.close.1.contents = s.contents ∧ s.close.1.limit = s.limit := by
  unfold close
  split <;> exact ⟨rfl, rfl⟩

namespace Buffered

/-- The bytes that the stream has taken: those of the sink and those that wait. -/
def taken (b : Buffered) : Bytes := b.sink.contents ++ b.buffer.toList

/-- A flush adds no bytes and loses none. Unless it fails, nothing waits any more. -/
theorem flush_spec (b : Buffered) :
    b.flush.1.taken = b.taken ∧ b.flush.1.fault = b.flush.2 ∧ b.flush.1.sink.limit = b.sink.limit ∧
      (b.flush.2 = none → b.flush.1.buffer = #[]) ∧ (b.sink.limit = none → b.flush.2 = b.fault) := by
  obtain ⟨hstored, hcount, hlimit, hunlimited⟩ := b.sink.write_spec b.buffer.toList
  unfold flush
  cases hfault : b.fault with
  | some f => simp [hfault]
  | none =>
    simp only
    split
    · rename_i hempty
      simpa [hfault] using hempty
    · generalize b.sink.write b.buffer.toList = result at *
      obtain ⟨sink, count, fault⟩ := result
      rw [Array.length_toList] at hcount hunlimited
      -- what the sink has not taken stays in the buffer
      have hkept : sink.contents ++ (b.buffer.extract count b.buffer.size).toList = b.taken := by
        have hrest : (b.buffer.extract count b.buffer.size).toList = b.buffer.toList.drop count := by
          simp [List.take_of_length_le]
        rw [hrest, hstored, List.append_assoc, List.take_append_drop]
        rfl
      cases fault with
      | some f => exact ⟨hkept, rfl, hlimit, by simp, fun h => by simpa using hunlimited h⟩
      | none =>
        by_cases hshort : count < b.buffer.size
        · simp only [hshort, if_true]
          refine ⟨hkept, trivial, hlimit, by simp, fun h => ?_⟩
          have hall : count = b.buffer.size := congrArg Receipt.count (hunlimited h)
          omega
        · have hall : count = b.buffer.size := Nat.le_antisymm hcount (Nat.le_of_not_lt hshort)
          simp only [hshort, if_false]
          exact ⟨by simpa [hall, taken] using hkept, trivial, hlimit, by simp, by simp⟩

theorem flush_of_fault {b : Buffered} {f : Fault} (h : b.fault = some f) : b.flush = (b, some f) := by
  unfold flush
  rw [h]

/-- The stream `b'` comes from `b` by taking a first part of the bytes of a write, which was answered by `r`. -/
structure Took (b b' : Buffered) (p : Bytes) (r : Receipt) : Prop where
  part : ∃ n, b'.taken = b.taken ++ p.take n
  all : r.fault = none → b'.taken = b.taken ++ p ∧ r.count = p.length
  fault : b'.fault = r.fault
  limit : b'.sink.limit = b.sink.limit
  unlimited : b.sink.limit = none → r.fault = none

theorem Took.buffered {b : Buffered} (p : Bytes) (h : b.fault = none) :
    Took b { b with buffer := b.buffer ++ p } p ⟨p.length, none⟩ where
  part := ⟨p.length, by simp [taken]⟩
  all := by simp [taken]
  fault := h
  limit := rfl
  unlimited _ := rfl

theorem writeEmpty_took {b : Buffered} (p : Bytes) (h : b.fault = none) (hempty : b.buffer = #[]) :
    Took b (b.writeEmpty p).1 p (b.writeEmpty p).2 := by
  obtain ⟨hstored, hcount, hlimit, hunlimited⟩ := b.sink.write_spec p
  unfold writeEmpty
  split
  · exact .buffered p h
  · -- a write that is longer than the buffer goes to the sink at once
    generalize b.sink.write p = result at *
    obtain ⟨sink, count, fault⟩ := result
    have hpart : ∃ n, sink.contents ++ b.buffer.toList = b.taken ++ p.take n := ⟨count, by simpa [taken, hempty] using hstored⟩
    cases fault with
    | some f => exact ⟨hpart, by simp, rfl, hlimit, fun hl => by simpa using hunlimited hl⟩
    | none =>
      by_cases hfits : (p.drop count).length ≤ capacity
      · simp only [hfits, if_true]
        exact ⟨⟨p.length, by simp [taken, hempty, hstored]⟩, by simp [taken, hempty, hstored], h, hlimit, by simp⟩
      · simp only [hfits, if_false]
        refine ⟨hpart, by simp, rfl, hlimit, fun hl => ?_⟩
        have hall : count = p.length := congrArg Receipt.count (hunlimited hl)
        simp [hall] at hfits

theorem write_took {b : Buffered} (p : Bytes) (h : b.fault = none) : Took b (b.write p).1 p (b.write p).2 := by
  obtain ⟨sink, buffer, fault⟩ := b
  obtain rfl : fault = none := h
  unfold write
  simp only
  split
  · exact .buffered p rfl
  · split
    · rename_i hempty
      exact writeEmpty_took p rfl (by simpa using hempty)
    · -- the buffer is filled up and flushed, and the rest is written to the empty buffer
      rename_i hlong _
      generalize capacity - buffer.size = free at *
      obtain ⟨htaken, hfault, hlimit, hempty, hunlimited⟩ := flush_spec { sink, buffer := buffer ++ p.take free }
      generalize flush { sink, buffer := buffer ++ p.take free } = result at *
      obtain ⟨flushed, fault⟩ := result
      have hfilled : flushed.taken = taken { sink, buffer } ++ p.take free := by simpa [taken] using htaken
      cases fault with
      | some f => exact ⟨⟨free, hfilled⟩, by simp, hfault, hlimit, hunlimited⟩
      | none =>
        have hrest := writeEmpty_took (p.drop free) hfault (hempty rfl)
        refine ⟨?_, ?_, hrest.fault, hrest.limit.trans hlimit, fun hl => hrest.unlimited (hlimit.trans hl)⟩
        · obtain ⟨n, hn⟩ := hrest.part
          exact ⟨free + n, by rw [hn, hfilled, List.append_assoc, ← List.take_add]⟩
        · intro hnone
          obtain ⟨hall, hcount⟩ := hrest.all hnone
          refine ⟨by rw [hall, hfilled, List.append_assoc, List.take_append_drop], ?_⟩
          simp only [hcount, List.length_drop]
          omega

theorem write_of_fault {b : Buffered} {f : Fault} (p : Bytes) (h : b.fault = some f) : b.write p = (b, ⟨0, some f⟩) := by
  unfold write
  rw [h]

end Buffered

namespace Guarded

theorem write_of_none {σ : Type} [Outlet σ] {g : Guarded σ} (h : g.failure = none) (p : Bytes) :
    (g.write p).1.outlet = (Outlet.write g.outlet p).1 ∧
      ((g.write p).1.failure = none ↔
        (Outlet.write g.outlet p).2.fault = none ∧ p.length ≤ (Outlet.write g.outlet p).2.count) := by
  unfold write
  simp only [h]
  generalize Outlet.write g.outlet p = result
  obtain ⟨outlet, count, fault⟩ := result
  cases fault <;> simp

def Intact (g : Guarded Buffered) : Prop := g.failure = none ∧ g.outlet.fault = none

theorem write_of_not_intact {g : Guarded Buffered} (h : ¬g.Intact) (p : Bytes) :
    (g.write p).1.failure ≠ none ∧ (g.write p).1.outlet = g.outlet := by
  unfold write
  cases hfailure : g.failure with
  | some e => exact ⟨by simp [hfailure], rfl⟩
  | none =>
    obtain ⟨f, hfault⟩ : ∃ f, g.outlet.fault = some f := by
      cases hf : g.outlet.fault with
      | none => exact absurd ⟨hfailure, hf⟩ h
      | some f => exact ⟨f, rfl⟩
    have hwrite : Outlet.write g.outlet p = (g.outlet, ⟨0, some f⟩) := Buffered.write_of_fault p hfault
    simp [hwrite]

/-- An intact stream takes the first part of the bytes; if the write does not fail, all of them, and it stays intact. -/
theorem write_of_intact {g : Guarded Buffered} (h : g.Intact) (p : Bytes) :
    (∃ n, (g.write p).1.outlet.taken = g.outlet.taken ++ p.take n) ∧
      ((g.write p).1.failure = none → (g.write p).1.Intact ∧ (g.write p).1.outlet.taken = g.outlet.taken ++ p) ∧
      (g.write p).1.outlet.sink.limit = g.outlet.sink.limit ∧
      (g.outlet.sink.limit = none → (g.write p).1.failure = none) := by
  obtain ⟨hfailure, hfault⟩ := h
  have htook := Buffered.write_took p hfault
  obtain ⟨houtlet, hnone⟩ := write_of_none hfailure p
  have hwrite : Outlet.write g.outlet p = g.outlet.write p := rfl
  rw [hwrite] at houtlet hnone
  unfold Intact
  rw [houtlet]
  refine ⟨htook.part, fun hsound => ?_, htook.limit, fun hlimit => ?_⟩
  · have hreceipt := (hnone.mp hsound).1
    exact ⟨⟨hsound, htook.fault.trans hreceipt⟩, (htook.all hreceipt).1⟩
  · have hreceipt := htook.unlimited hlimit
    exact hnone.mpr ⟨hreceipt, Nat.le_of_eq (htook.all hreceipt).2.symm⟩

end Guarded

theorem emit_of_room {s : Sink} {texts : List Bytes} (h : s.HasRoom texts.flatten.length) :
    emit s texts = ({ s with stored := s.stored ++ texts.flatten }, none) := by
  induction texts generalizing s with
  | nil => simp [emit, Guarded.writeAll]
  | cons p rest ih =>
    rw [List.flatten_cons, List.length_append] at h
    have hwrite : s.write p = ({ s with stored := s.stored ++ p }, ⟨p.length, none⟩) :=
      Sink.write_of_room fun limit hlimit => Nat.le_trans (by omega) (h limit hlimit)
    have hemit : emit s (p :: rest) = emit { s with stored := s.stored ++ p } rest := by
      have hguarded : (({ outlet := s } : Guarded Sink).write p).1 = { outlet := { s with stored := s.stored ++ p } } := by
        simp only [Guarded.write, Outlet.write, hwrite, Nat.lt_irrefl, if_false, Option.map_none]
      rw [emit, Guarded.writeAll, List.foldl_cons, hguarded]
      rfl
    have hrest : Sink.HasRoom { s with stored := s.stored ++ p } rest.flatten.length := by
      intro limit hlimit
      have hfits := h limit hlimit
      have hsize : (s.stored ++ p).size = s.stored.size + p.length := by simp [← Array.length_toList]
      simp only [hsize]
      omega
    have hstored : s.stored ++ p ++ rest.flatten = s.stored ++ (p :: rest).flatten := by simp [← Array.toList_inj]
    rw [hemit, ih hrest, hstored]

theorem emit_of_unlimited {s : Sink} (h : s.limit = none) (texts : List Bytes) :
    (emit s texts).1.contents = s.contents ++ texts.flatten ∧ (emit s texts).2 = none := by
  have hroom : s.HasRoom texts.flatten.length := fun limit hlimit => by simp [h] at hlimit
  simp [emit_of_room hroom, Sink.contents]

end HackPlatform.Stream
