import HackPlatform.Assembly.Listing
import HackPlatform.Machine.Image
import HackPlatform.Machine.Report
import HackPlatform.Machine.Screen
import HackPlatform.Proofs.Stream.Order

/-!
# Texts are cut where a sink ends

An emitter writes a text in many pieces and looks at the answers only at the end. The guard makes up for that: the first
piece that does not fit is stored up to the end of the sink, and no later piece reaches the sink, so what the sink holds
is the start of the text (`Guarded.Cut`). A piece that was taken in part counts as a failure even if the sink kept silent.
So the emitters of program images, listings, renditions of the screen and dumps lose nothing without saying so
(`emitters_report_every_loss`).
-/

namespace HackPlatform.Stream

/-! ## A limited sink behind a guard -/

/-- How many bytes more a sink with a limit can take. -/
def Sink.room? (s : Sink) : Option Nat := s.limit.map (· - s.stored.size)

/-- A sink takes of a text what it has room for. It answers with the length of the text and no fault exactly if it has
room for all of it. -/
theorem Sink.write_of_room? {s : Sink} {room : Nat} (h : s.room? = some room) (p : Bytes) :
    (s.write p).1.contents = s.contents ++ p.take room ∧ (s.write p).1.room? = some (room - p.length) ∧
      (((s.write p).2.fault = none ∧ p.length ≤ (s.write p).2.count) ↔ p.length ≤ room) := by
  obtain ⟨limit, hlimit, rfl⟩ := Option.map_eq_some_iff.mp h
  have hsize (q : Bytes) : (s.stored ++ q).size = s.stored.size + q.length := by
    rw [← Array.length_toList, Array.toList_appendList, List.length_append, Array.length_toList]
  unfold write
  simp only [hlimit]
  by_cases hfits : p.length ≤ limit - s.stored.size
  · rw [if_pos hfits]
    refine ⟨by simp [contents, List.take_of_length_le hfits], ?_, by simp [hfits]⟩
    show some (limit - (s.stored ++ p).size) = _
    rw [hsize, Nat.sub_add_eq]
  · rw [if_neg hfits]
    refine ⟨by simp [contents], ?_, by simp [hfits]⟩
    show some (limit - (s.stored ++ p.take (limit - s.stored.size)).size) = _
    rw [hsize, List.length_take]
    exact congrArg some (by omega)

/-- A guarded sink that held `held` and had room for `room` bytes was given these bytes: it holds the first of them, as
many as fit, and the guard has noted a failure exactly if some did not fit. -/
structure Guarded.Cut (held : Bytes) (room : Nat) (given : Bytes) (g : Guarded Sink) : Prop where
  contents : g.outlet.contents = held ++ given.take room
  left : g.failure = none → g.outlet.room? = some (room - given.length)
  failure : g.failure = none ↔ given.length ≤ room

namespace Guarded.Cut

variable {held given : Bytes} {room : Nat} {g : Guarded Sink}

theorem write (h : Cut held room given g) (p : Bytes) : Cut held room (given ++ p) (g.write p).1 := by
  cases hfailure : g.failure with
  | some e =>
    -- nothing reaches the sink any more, and it was full before
    have hfull : ¬given.length ≤ room := fun hfits => by simp [h.failure.mpr hfits] at hfailure
    have hsame : (g.write p).1 = g := by simp [Guarded.write, hfailure]
    rw [hsame]
    refine ⟨?_, by simp [hfailure], ?_⟩
    · rw [h.contents, List.take_append_of_le_length (Nat.le_of_not_le hfull)]
    · rw [List.length_append]
      exact ⟨fun hnone => by simp [hfailure] at hnone, fun hfits => absurd (Nat.le_of_add_right_le hfits) hfull⟩
  | none =>
    have hfits := h.failure.mp hfailure
    obtain ⟨hcontents, hroom, hanswer⟩ := Sink.write_of_room? (h.left hfailure) p
    obtain ⟨houtlet, hnone⟩ := Guarded.write_of_none hfailure p
    have hwrite : Outlet.write g.outlet p = g.outlet.write p := rfl
    rw [hwrite] at houtlet hnone
    refine ⟨?_, fun _ => ?_, ?_⟩
    · rw [houtlet, hcontents, h.contents, List.append_assoc, List.take_append, List.take_of_length_le hfits]
    · rw [houtlet, hroom, List.length_append, Nat.sub_add_eq]
    · rw [hnone, hanswer, List.length_append]
      omega

theorem writeAll (h : Cut held room given g) (texts : List Bytes) : Cut held room (given ++ texts.flatten) (g.writeAll texts) := by
  induction texts generalizing given g with
  | nil => simpa [Guarded.writeAll] using h
  | cons p rest ih =>
    rw [List.flatten_cons, ← List.append_assoc]
    exact ih (h.write p)

end Guarded.Cut

/-! ## Emitters -/

/-- The emitter writes this text, as far as there is room for it: a sink without a limit gets it all, and a sink with
room for `n` bytes gets the first `n` bytes. It reports a failure exactly if some of the text was lost. -/
structure Emits (text : Bytes) (emitter : Sink → Sink × Option Error) : Prop where
  whole {sink : Sink} (h : sink.limit = none) : (emitter sink).1.contents = sink.contents ++ text ∧ (emitter sink).2 = none
  part {sink : Sink} {n : Nat} (h : sink.room? = some n) :
    (emitter sink).1.contents = sink.contents ++ text.take n ∧ ((emitter sink).2 = none ↔ text.length ≤ n)

theorem emits_flatten (texts : List Bytes) : Emits texts.flatten (emit · texts) := by
  refine ⟨fun h => emit_of_unlimited h texts, fun {sink n} h => ?_⟩
  have hstart : Guarded.Cut sink.contents n [] { outlet := sink } := ⟨by simp, fun _ => h, by simp⟩
  have hend := hstart.writeAll texts
  rw [List.nil_append] at hend
  exact ⟨hend.contents, hend.failure⟩

/-- Emitters lose nothing without saying so. A program image, a listing, a rendition of the screen and a dump arrive at a
sink up to its end, and the emitter reports no failure exactly if that is all of the text. There is a dump of every
computer with at least 13 words of memory. -/
theorem emitters_report_every_loss :
    (∀ rom, Emits (Image.lines rom).flatten (Image.encode · rom)) ∧
      (∀ base rom, Emits (Assembly.Listing.allTexts base rom).flatten (Assembly.Listing.writeAll · base rom)) ∧
      (∀ (c : Computer) columns clear, Emits (c.screenTexts columns clear).flatten (c.render · columns clear)) ∧
      ∀ c : Computer, 13 ≤ c.ram.size →
        ∃ texts emitter, c.dumpTexts? = some texts ∧ (∀ sink, c.dump? sink = some (emitter sink)) ∧
          Emits texts.flatten emitter := by
  refine ⟨fun _ => emits_flatten _, fun _ _ => emits_flatten _, fun _ _ _ => emits_flatten _, fun c hsize => ?_⟩
  have hcells : 13 ≤ c.ram.cells.size := Nat.le_trans hsize c.ram.size_le
  have hlarge : ¬(c.ram.size < 5 || c.ram.cells.size < 13) = true := by
    simp only [Bool.or_eq_true, decide_eq_true_eq]
    omega
  have hdump : c.dumpTexts? = some _ := if_neg hlarge
  refine ⟨_, (emit · _), hdump, fun sink => ?_, emits_flatten _⟩
  rw [Computer.dump?, hdump]
  rfl

/-- The dump of a computer with 13 words of memory, at a silent sink that ends inside of the second piece: later pieces
that are shorter are not stored either. -/
theorem emitters_report_every_loss_dump :
    let c : Computer := { pc := -1, a := 0xFFFF, ram := Memory.blank 13 }
    let sink : Sink := { limit := some 20, silent := true }
    13 ≤ c.ram.size ∧ sink.room? = some 20 ∧
      ∃ result, c.dump? sink = some result ∧ result.1.contents = ascii "PC: -1 A: -1 D: 0 cy" ∧ result.2 ≠ none := by
  intro c sink
  have hroom : sink.room? = some 20 := rfl
  have htext : ∀ texts ∈ c.dumpTexts?,
      texts.flatten.take 20 = ascii "PC: -1 A: -1 D: 0 cy" ∧ ¬texts.flatten.length ≤ 20 := by
    decide +kernel
  obtain ⟨texts, emitter, htexts, hdump, hemits⟩ := emitters_report_every_loss.2.2.2 c (by decide)
  obtain ⟨hcontents, hnone⟩ := hemits.part hroom
  obtain ⟨htake, hlong⟩ := htext texts htexts
  rw [htake] at hcontents
  exact ⟨by decide, hroom, emitter sink, hdump sink, hcontents, fun h => hlong (hnone.mp h)⟩

end HackPlatform.Stream
