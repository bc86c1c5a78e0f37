import HackPlatform.Console.Assemble
import HackPlatform.Proofs.Console.Translate
import HackPlatform.Proofs.Machine.Image

/-!
# What the assembler leaves

The assembler writes images that are read back as the program that was assembled (`assemble_spec`). Whether a text is assembled, and to
what, has nothing to do with the name of the file that it is from.
-/

namespace HackPlatform

/-! ## Images -/

theorem Stream.Guarded.Delivers.writeAll {origin : Sink} {given : Bytes} {g : Guarded Buffered} (h : g.Delivers origin given)
    (texts : List Bytes) : (g.writeAll texts).Delivers origin (given ++ texts.flatten) := by
  induction texts generalizing g given with
  | nil => simpa [Guarded.writeAll] using h
  | cons p rest ih =>
    rw [List.flatten_cons, ← List.append_assoc]
    exact ih (h.write p)

theorem Stream.Guarded.Intact.writeAll {g : Guarded Buffered} (h : g.Intact) (hlimit : g.outlet.sink.limit = none)
    (texts : List Bytes) : (g.writeAll texts).Intact ∧ (g.writeAll texts).outlet.sink.limit = none := by
  induction texts generalizing g with
  | nil => exact ⟨h, hlimit⟩
  | cons p rest ih =>
    obtain ⟨-, hintact, hsame, hunlimited⟩ := write_of_intact h p
    exact ih (hintact (hunlimited hlimit)).1 (hsame.trans hlimit)

namespace Console

open Volume (Saved)

theorem writeImage_spec (sink : Stream.Sink) (rom : Array Instruction) :
    ∃ g : Stream.Guarded Stream.Buffered, g.Delivers sink (sink.contents ++ (Image.lines rom).flatten) ∧
      (sink.limit = none → g.Intact ∧ g.outlet.sink.limit = none) ∧
      writeImage sink rom = (g.outlet.flush.1.sink.close.1,
        g.failure <|> g.outlet.flush.2.map (⟨.write, ·⟩) <|> g.outlet.flush.1.sink.close.2.map (⟨.close, ·⟩)) := by
  let start : Stream.Guarded Stream.Buffered := { outlet := { sink } }
  have hstart : start.Delivers sink sink.contents :=
    ⟨.intact rfl rfl (by simp [start, Stream.Buffered.taken]), fun hfailed => absurd rfl hfailed⟩
  have hintact : start.Intact := ⟨rfl, rfl⟩
  exact ⟨start.writeAll (Image.lines rom), hstart.writeAll _, fun hlimit => hintact.writeAll hlimit _, rfl⟩

theorem contents_writeImage {sink sink' : Stream.Sink} {rom : Array Instruction} (h : writeImage sink rom = (sink', none)) :
    sink'.contents = sink.contents ++ (Image.lines rom).flatten := by
  obtain ⟨g, hdelivers, -, hwrite⟩ := writeImage_spec sink rom
  rw [hwrite] at h
  have hflush : g.outlet.flush.2 = none := by
    have hanswer := congrArg Prod.snd h
    cases hfailure : g.failure with
    | some e => simp [hfailure] at hanswer
    | none => cases hflush : g.outlet.flush.2 <;> simp [hfailure, hflush] at hanswer ⊢
  obtain ⟨-, hfault, -, hempty, -⟩ := g.outlet.flush_spec
  have htaken := hdelivers.outlet.flush.taken (hfault.trans hflush)
  rw [Stream.Buffered.taken, hempty hflush, List.append_nil] at htaken
  rw [← htaken, ← (Stream.Sink.close_spec g.outlet.flush.1.sink).1]
  exact congrArg (fun result => result.1.contents) h.symm

theorem writeImage_of_unlimited {sink : Stream.Sink} (hlimit : sink.limit = none) (rom : Array Instruction) :
    (writeImage sink rom).2 = sink.close.2.map (⟨.close, ·⟩) := by
  obtain ⟨g, hdelivers, hunlimited, hwrite⟩ := writeImage_spec sink rom
  obtain ⟨⟨hfailure, hfault⟩, hlimit'⟩ := hunlimited hlimit
  obtain ⟨-, -, -, -, hflush⟩ := g.outlet.flush_spec
  rw [hwrite, hdelivers.outlet.flush.close_sink]
  simp [hfailure, hflush hlimit', hfault]

theorem assemble_name {name name' : Bytes} {source : Source} {rom : Array Instruction}
    (h : Assembly.assemble name source = .ok rom) : Assembly.assemble name' source = .ok rom :=
  (Assembly.assemble_eq_ok_iff _ _ _).mpr ((Assembly.assemble_eq_ok_iff _ _ _).mp h)

theorem saveImage_eq_none {s s' : Session} {output : Bytes} {rom : Array Instruction} (h : saveImage s output rom = (s', none)) :
    ∃ loc sink, s.volume.locateNew output = .ok loc ∧ writeImage s.volume.medium rom = (sink, none) ∧
      s'.volume = (s.volume.put loc (.file [])).put loc (.file sink.contents) := by
  unfold saveImage at h
  rcases hcreate : s.volume.create output with e | ⟨volume, loc⟩
  · simp [hcreate] at h
  · obtain ⟨hnew, rfl⟩ := create_eq_ok hcreate
    simp only [hcreate] at h
    rcases hwrite : writeImage (s.volume.put loc (.file [])).medium rom with ⟨sink, _ | e⟩
    · simp only [hwrite] at h
      exact ⟨loc, sink, hnew, hwrite, congrArg Session.volume (Prod.mk.inj h).1.symm⟩
    · simp [hwrite] at h

theorem saveImage_of_unlimited {s : Session} {output : Bytes} {loc : Location} (hnew : s.volume.locateNew output = .ok loc)
    (hlimit : s.volume.medium.limit = none) (hclose : s.volume.medium.close.2 = none) (rom : Array Instruction) :
    ∃ s', saveImage s output rom = (s', none) := by
  have hanswer := writeImage_of_unlimited hlimit rom
  rw [hclose, Option.map_none] at hanswer
  have hcreate : s.volume.create output = .ok (s.volume.put loc (.file []), loc) := by rw [Volume.create, hnew]
  rcases hwrite : writeImage s.volume.medium rom with ⟨sink, answer⟩
  rw [hwrite] at hanswer
  simp only at hanswer
  subst hanswer
  have hmedium : (s.volume.put loc (.file [])).medium = s.volume.medium := rfl
  simp only [saveImage, hcreate, hmedium, hwrite]
  exact ⟨_, rfl⟩

theorem assemble_eq_none {o : Options} {s s' : Session} {stem : Bytes} (houtput : o.output = []) (hlisting : o.listing = false)
    (h : assemble o (stem ++ assemblyEnding) s = (s', none)) :
    ∃ rom s₁, assembleFile s.volume (stem ++ assemblyEnding) = .ok rom ∧ s.Logged s₁ ∧
      saveImage s₁ (stem ++ imageEnding) rom = (s', none) := by
  have hending : Path.IsEnding assemblyEnding := by decide
  unfold assemble at h
  rw [hlisting, if_neg (by simp)] at h
  rcases hrom : assembleFile s.volume (stem ++ assemblyEnding) with e | rom
  · simp [hrom] at h
  · simp only [hrom, houtput, List.isEmpty_nil, if_true, hending.dropEnding_append] at h
    exact ⟨rom, _, rfl, s.logged_note _ _, h⟩

/-- Assembling that succeeds leaves the assembly as it is, and has stored an image of the program. -/
theorem assemble_spec {o : Options} {s s' : Session} {stem : Bytes} (hmedium : s.volume.medium.contents = [])
    (houtput : o.output = []) (hlisting : o.listing = false) (h : assemble o (stem ++ assemblyEnding) s = (s', none)) :
    ∃ rom, assembleFile s.volume (stem ++ assemblyEnding) = .ok rom ∧ Saved s.volume s'.volume ∧
      (∀ n, s'.volume.find (stem ++ assemblyEnding) = .ok n ↔ s.volume.find (stem ++ assemblyEnding) = .ok n) ∧
      s'.volume.find (stem ++ imageEnding) = .ok (.file (Image.lines rom).flatten) := by
  have hending : Path.IsEnding assemblyEnding := by decide
  obtain ⟨rom, s₁, hrom, hlogged, hsave⟩ := assemble_eq_none houtput hlisting h
  obtain ⟨loc, sink, hnew, hwrite, hvolume⟩ := saveImage_eq_none hsave
  rw [hlogged.volume] at hnew hwrite hvolume
  obtain ⟨parent, rfl, hplace⟩ := Volume.place_of_locateNew (by decide) (by decide) (by decide) hnew
  have hstart : Saved s.volume (s.volume.put _ (.file [])) := .put .refl hplace []
  have hother : (Path.split stem).2 ++ assemblyEnding ≠ (Path.split stem).2 ++ imageEnding := by
    simpa using (by decide : assemblyEnding ≠ imageEnding)
  refine ⟨rom, hrom, ?_, fun n => ?_, ?_⟩
  · rw [hvolume]
    exact hstart.put (hstart.place hplace) _
  · rw [hvolume, Volume.find_put_of_ne (hstart.place hplace) _ (Path.endsWith_append stem _) (hending.ordinary_append stem) hother,
      Volume.find_put_of_ne hplace _ (Path.endsWith_append stem _) (hending.ordinary_append stem) hother]
  · rw [hvolume, find_put_self (Volume.locate_of_locateNew hnew).1 hstart hplace, contents_writeImage hwrite, hmedium,
      List.nil_append]

end Console

end HackPlatform
