import HackPlatform.Console.Execute
import HackPlatform.Proofs.Machine.Installed
import HackPlatform.Proofs.Text.Numeral
import Mathlib.Data.List.Forall2

/-!
# Presets reach memory

The name of a preset denotes an address as a symbol or as a decimal numeral, and never as both, so it does not matter which
of them is tried first (`Settings.presetAddress?_eq_some_iff`), and whether both are (`Settings.hasPreset_iff`). Presets are
stored one after the other, in the order in which they are listed. Two names may denote one address, and then a later
preset replaces an earlier one; but each word of memory ends up with a value that some preset gives for it, or as it was
(`Computer.configureAll_presets`). So the order is not seen in whether a computer can be made, and in its memory only where
names share an address (`presets_reach_memory`).
-/

namespace HackPlatform

theorem Word.signed_ofInt (v : Int) : (Word.ofInt v).signed = v.bmod 65536 := by
  rw [signed_eq, toNat_ofInt_eq_mod, Int.bmod]
  omega

/-! ## Names -/

namespace Settings

/-- The name denotes the address, as a predefined symbol or as a decimal numeral. -/
def Denotes (name : Bytes) (addr : Int) : Prop :=
  (∃ n : Nat, (name, n) ∈ Assembly.predefined ∧ addr = n) ∨ Numeral.IsDecimal name addr

theorem predefined?_eq_some_iff {name : Bytes} {n : Nat} :
    Assembly.predefined? name = some n ↔ (name, n) ∈ Assembly.predefined := by
  constructor
  · intro h
    obtain ⟨before, after, hsplit, -⟩ := List.lookup_eq_some_iff.mp h
    rw [hsplit]
    simp
  · intro h
    have hall : ∀ p ∈ Assembly.predefined, Assembly.predefined? p.1 = some p.2 := by decide
    exact hall _ h

theorem predefined?_of_isDecimal {name : Bytes} {addr : Int} (h : Numeral.IsDecimal name addr) :
    Assembly.predefined? name = none := by
  have hall : ∀ p ∈ Assembly.predefined, Numeral.readInt? p.1 = none := by decide
  cases hsymbol : Assembly.predefined? name with
  | none => rfl
  | some n =>
    have hnone := hall _ (predefined?_eq_some_iff.mp hsymbol)
    rw [Numeral.readInt?_eq_some_iff.mpr h] at hnone
    exact absurd hnone (by simp)

theorem denotes_iff {name : Bytes} {addr : Int} :
    Denotes name addr ↔ (Assembly.predefined? name).map Int.ofNat = some addr ∨ Numeral.readInt? name = some addr := by
  rw [Numeral.readInt?_eq_some_iff, Option.map_eq_some_iff, Denotes]
  simp only [predefined?_eq_some_iff, Int.ofNat_eq_natCast, eq_comm (a := addr)]

theorem presetAddress?_eq_some_iff {name : Bytes} {addr : Int} : presetAddress? name = some addr ↔ Denotes name addr := by
  rw [denotes_iff, presetAddress?]
  cases hsymbol : Assembly.predefined? name with
  | none => simp
  | some n =>
    have hword : Numeral.readInt? name ≠ some addr := fun hread => by
      rw [predefined?_of_isDecimal (Numeral.readInt?_eq_some_iff.mp hread)] at hsymbol
      exact absurd hsymbol (by simp)
    simp [hword]

theorem Denotes.unique {name : Bytes} {addr addr' : Int} (h : Denotes name addr) (h' : Denotes name addr') : addr = addr' :=
  Option.some.inj ((presetAddress?_eq_some_iff.mpr h).symm.trans (presetAddress?_eq_some_iff.mpr h'))

theorem hasPreset_iff {s : Settings} {addr : Int} : s.hasPreset addr = true ↔ ∃ p ∈ s.presets, Denotes p.1 addr := by
  simp [hasPreset, denotes_iff]

/-! ## Settings of the computer -/

/-- What a preset becomes: its value is stored at the address that its name denotes. -/
def Becomes (p : Bytes × Int) (setting : Computer.Setting) : Prop :=
  ∃ addr, Denotes p.1 addr ∧ (-32768 ≤ p.2 ∧ p.2 ≤ 65535) ∧ setting = .preset addr (Word.ofInt p.2)

theorem presetSetting_eq_ok_iff {p : Bytes × Int} {setting : Computer.Setting} :
    presetSetting p.1 p.2 = .ok setting ↔ Becomes p setting := by
  have hrange : (p.2 < -32768 || 65535 < p.2) = true ↔ ¬(-32768 ≤ p.2 ∧ p.2 ≤ 65535) := by
    simp only [Bool.or_eq_true, decide_eq_true_eq]
    omega
  unfold presetSetting Becomes
  simp only [← presetAddress?_eq_some_iff]
  cases presetAddress? p.1 with
  | none => simp
  | some addr =>
    simp only [hrange, Option.some.injEq, exists_eq_left']
    split
    · rename_i hout
      simp [hout]
    · rename_i hin
      simp [not_not.mp hin, eq_comm]

theorem mapM_eq_ok_iff {ε α β : Type} {f : α → Except ε β} {xs : List α} {ys : List β} :
    xs.mapM f = .ok ys ↔ List.Forall₂ (fun x y => f x = .ok y) xs ys := by
  induction xs generalizing ys with
  | nil => simp [pure, Except.pure, eq_comm]
  | cons x rest ih =>
    simp only [List.mapM_cons, List.forall₂_cons_left_iff, ← ih]
    cases f x with
    | error e => simp [bind, Except.bind]
    | ok y => cases rest.mapM f <;> simp [bind, Except.bind, pure, Except.pure, eq_comm]

theorem exists_forall₂_iff {α β : Type} {r : α → β → Prop} {xs : List α} :
    (∃ ys, List.Forall₂ r xs ys) ↔ ∀ x ∈ xs, ∃ y, r x y := by
  induction xs with
  | nil => simp
  | cons x rest ih =>
    rw [List.forall_mem_cons, ← ih]
    constructor
    · rintro ⟨_, _ | ⟨hx, hrest⟩⟩
      exact ⟨⟨_, hx⟩, _, hrest⟩
    · rintro ⟨⟨y, hx⟩, ys, hrest⟩
      exact ⟨y :: ys, .cons hx hrest⟩

theorem presetSettings_eq_ok_iff {s : Settings} {settings : List Computer.Setting} :
    s.presetSettings = .ok settings ↔ List.Forall₂ Becomes s.presets settings := by
  have hbecomes : (fun (p : Bytes × Int) setting => presetSetting p.1 p.2 = .ok setting) = Becomes :=
    funext fun _ => funext fun _ => propext presetSetting_eq_ok_iff
  rw [← hbecomes]
  exact mapM_eq_ok_iff

theorem preset_ne_zero {s : Settings} {presets : List Computer.Setting} (hsettings : s.presetSettings = .ok presets)
    (hnone : s.hasPreset 0 = false) : ∀ p ∈ presets, ∃ addr w, p = .preset addr w ∧ addr ≠ 0 := by
  have hfree : ∀ p ∈ s.presets, ¬Denotes p.1 0 := fun p hp hzero => by
    rw [hasPreset_iff.mpr ⟨p, hp, hzero⟩] at hnone
    exact absurd hnone (by simp)
  rw [presetSettings_eq_ok_iff] at hsettings
  generalize s.presets = listed at hfree hsettings
  induction hsettings with
  | nil => simp
  | cons hp hrest ih =>
    rw [List.forall_mem_cons] at hfree ⊢
    obtain ⟨addr, haddr, -, rfl⟩ := hp
    refine ⟨⟨addr, _, rfl, ?_⟩, ih hfree.2⟩
    rintro rfl
    exact hfree.1 haddr

end Settings

/-! ## Memory -/

namespace Computer

open Settings (Denotes Becomes)

/-- The preset would store outside of memory. -/
def Strays (p : Bytes × Int) : Prop := ∃ addr, Denotes p.1 addr ∧ (addr < 0 ∨ 32767 < addr)

/-- What presets leave at an address where `old` stood: a value that one of them gives for it, or `old` if there is none. -/
def Leaves (presets : List (Bytes × Int)) (addr : Nat) (old new : Word) : Prop :=
  (∃ p ∈ presets, Denotes p.1 addr ∧ new = Word.ofInt p.2) ∨ (∀ p ∈ presets, ¬Denotes p.1 addr) ∧ new = old

theorem Leaves.cons {presets : List (Bytes × Int)} {p : Bytes × Int} {addr i : Nat} {m : Memory} {new : Word}
    (hp : Denotes p.1 addr) (haddr : addr < m.size) (h : Leaves presets i ((m.write addr (Word.ofInt p.2)).read i) new) :
    Leaves (p :: presets) i (m.read i) new := by
  rcases h with ⟨q, hq, hdenotes, hnew⟩ | ⟨hfree, hnew⟩
  · exact .inl ⟨q, List.mem_cons_of_mem _ hq, hdenotes, hnew⟩
  · rw [Memory.read_write haddr] at hnew
    by_cases hi : i = addr
    · subst hi
      rw [Function.update_self] at hnew
      exact .inl ⟨p, List.mem_cons_self, hp, hnew⟩
    · rw [Function.update_of_ne hi] at hnew
      refine .inr ⟨List.forall_mem_cons.mpr ⟨fun hdenotes => hi ?_, hfree⟩, hnew⟩
      exact Int.ofNat_inj.mp (hdenotes.unique hp)

theorem configureAll_presets {presets : List (Bytes × Int)} {settings : List Setting} (h : List.Forall₂ Becomes presets settings)
    {c : Computer} (hsize : c.ram.size = Memory.maxSize) :
    ((∃ p ∈ presets, Strays p) ∧ (c.configureAll settings).2 ≠ none) ∨
      (∀ p ∈ presets, ¬Strays p) ∧ ∃ m, c.configureAll settings = ({ c with ram := m }, none) ∧ m.size = Memory.maxSize ∧
        ∀ i, Leaves presets i (c.ram.read i) (m.read i) := by
  induction h generalizing c with
  | nil => exact .inr ⟨by simp, c.ram, rfl, hsize, fun i => .inr ⟨by simp, rfl⟩⟩
  | @cons p setting presets settings hp hrest ih =>
    obtain ⟨addr, haddr, -, rfl⟩ := hp
    have hbounds : (addr < 0 || (c.ram.size : Int) ≤ addr) = true ↔ addr < 0 ∨ 32767 < addr := by
      have hmax : (c.ram.size : Int) = 32768 := congrArg Int.ofNat hsize
      simp only [Bool.or_eq_true, decide_eq_true_eq]
      omega
    rw [configureAll, configure]
    by_cases hstrays : addr < 0 ∨ 32767 < addr
    · rw [if_pos (hbounds.mpr hstrays)]
      exact .inl ⟨⟨p, List.mem_cons_self, addr, haddr, hstrays⟩, by simp⟩
    · rw [if_neg (mt hbounds.mp hstrays)]
      obtain ⟨i, rfl⟩ := Int.eq_ofNat_of_zero_le (show 0 ≤ addr by omega)
      have hinside : i < c.ram.size := by
        rw [hsize]
        show i < 32768
        omega
      have hp : ¬Strays p := fun ⟨addr', haddr', hstrays'⟩ => hstrays (haddr.unique haddr' ▸ hstrays')
      rcases ih (c := { c with ram := c.ram.write i (Word.ofInt p.2) }) hsize with
        ⟨⟨q, hq, hstray⟩, hfailed⟩ | ⟨hfree, m, hconfigured, hm, hleaves⟩
      · exact .inl ⟨⟨q, List.mem_cons_of_mem _ hq, hstray⟩, hfailed⟩
      · exact .inr ⟨List.forall_mem_cons.mpr ⟨hp, hfree⟩, m, hconfigured, hm, fun j => (hleaves j).cons haddr hinside⟩

end Computer

/-! ## Computers -/

namespace Console

open Settings (Denotes Becomes)
open Computer (Strays Leaves)

/-- A preset that no computer can be made with: its name denotes nothing, its value is no word, or it strays. -/
def Refused (p : Bytes × Int) : Prop :=
  (∀ addr, ¬Denotes p.1 addr) ∨ (p.2 < -32768 ∨ 65535 < p.2) ∨ Strays p

/-- What the memory of a new computer may hold at an address: a value that some preset gives for it, as a signed word; or
without a preset for it, the base of the stack at address zero if the program needs one, and zero anywhere else. -/
inductive Holds (presets : List (Bytes × Int)) (startsItself : Bool) (addr : Nat) : Word → Prop where
  | preset {p : Bytes × Int} {w : Word} (listed : p ∈ presets) (denotes : Denotes p.1 addr)
      (value : w.signed = p.2.bmod 65536) : Holds presets startsItself addr w
  | stack (free : ∀ p ∈ presets, ¬Denotes p.1 addr) (pointer : addr = 0) (needed : startsItself = false) :
      Holds presets startsItself addr 256
  | blank (free : ∀ p ∈ presets, ¬Denotes p.1 addr) (other : addr ≠ 0 ∨ startsItself = true) :
      Holds presets startsItself addr 0

theorem refused_iff_of_becomes {p : Bytes × Int} {setting : Computer.Setting} (h : Becomes p setting) : Refused p ↔ Strays p := by
  obtain ⟨addr, hdenotes, hvalue, -⟩ := h
  have hnamed : ¬∀ addr, ¬Denotes p.1 addr := fun hnone => hnone addr hdenotes
  have hword : ¬(p.2 < -32768 ∨ 65535 < p.2) := by omega
  simp only [Refused, hnamed, hword, false_or]

theorem refused_of_presetSettings {settings : Settings} {e : Settings.PresetError} (h : settings.presetSettings = .error e) :
    ∃ p ∈ settings.presets, Refused p := by
  have hnone : ¬∀ p ∈ settings.presets, ∃ setting, Becomes p setting := fun hall => by
    obtain ⟨presets, hpresets⟩ := Settings.exists_forall₂_iff.mpr hall
    rw [Settings.presetSettings_eq_ok_iff.mpr hpresets] at h
    exact absurd h (by simp)
  simp only [not_forall, not_exists] at hnone
  obtain ⟨p, hp, hnone⟩ := hnone
  refine ⟨p, hp, ?_⟩
  by_cases hnamed : ∃ addr, Denotes p.1 addr
  · obtain ⟨addr, hdenotes⟩ := hnamed
    refine .inr (.inl ?_)
    have hvalue : ¬(-32768 ≤ p.2 ∧ p.2 ≤ 65535) := fun hvalue => hnone _ ⟨addr, hdenotes, hvalue, rfl⟩
    omega
  · exact .inl (not_exists.mp hnamed)

/-- The memory that presets are stored in: it is zero but for the stack pointer, if the program needs one. -/
theorem exists_base (rom : Array Instruction) (needsStack : Bool) (presets : List Computer.Setting) :
    ∃ base : Memory, base.size = Memory.maxSize ∧ (∀ i, base.read i = if needsStack = true ∧ i = 0 then 256 else 0) ∧
      ({ rom } : Computer).configureAll (if needsStack then initialStack :: presets else presets) =
        ({ rom, ram := base } : Computer).configureAll presets := by
  have hblank (n i : Nat) : (Memory.blank n).read i = 0 := by
    simp only [Memory.blank, Memory.read, Array.getD_eq_getD_getElem?, Array.getElem?_replicate]
    split <;> rfl
  cases needsStack with
  | false => exact ⟨Memory.blank Memory.maxSize, rfl, by simpa using hblank _, rfl⟩
  | true =>
    have hstack : ({ rom } : Computer).configure initialStack = .ok { rom, ram := (Memory.blank Memory.maxSize).write 0 256 } := rfl
    refine ⟨(Memory.blank Memory.maxSize).write 0 256, rfl, fun i => ?_, ?_⟩
    · rw [Memory.read_write (by decide), Function.update_apply, hblank]
      simp
    · rw [if_pos rfl, Computer.configureAll, hstack]

theorem holds_of_leaves {settings : Settings} {startsItself : Bool} {addr : Nat} {old new : Word}
    (hold : old = if (!startsItself && !settings.hasPreset 0) = true ∧ addr = 0 then 256 else 0)
    (h : Leaves settings.presets addr old new) : Holds settings.presets startsItself addr new := by
  rcases h with ⟨p, hp, hdenotes, rfl⟩ | ⟨hfree, rfl⟩
  · exact .preset hp hdenotes (Word.signed_ofInt p.2)
  · rw [hold]
    split
    · rename_i hneeded
      simp only [Bool.and_eq_true, Bool.not_eq_true'] at hneeded
      exact .stack hfree hneeded.2 hneeded.1.1
    · rename_i hdone
      refine .blank hfree ?_
      by_cases hzero : addr = 0
      · subst hzero
        have hnone : settings.hasPreset 0 = false := by
          rw [← Bool.not_eq_true, Settings.hasPreset_iff]
          exact fun ⟨p, hp, hdenotes⟩ => hfree p hp hdenotes
        exact .inr (by simpa [hnone] using hdone)
      · exact .inl hzero

/-- Whether a computer can be made, and what its memory holds, as far as the order of the presets does not matter. -/
theorem newComputer_cases (settings : Settings) (program : Program) :
    ((∃ p ∈ settings.presets, Refused p) ∧ ∃ e, newComputer settings program = .error e) ∨
      (∀ p ∈ settings.presets, ¬Refused p) ∧
        ∃ m : Memory, newComputer settings program = .ok { rom := program.rom, ram := m } ∧ m.size = Memory.maxSize ∧
          ∀ addr, Holds settings.presets program.startsItself addr (m.read addr) := by
  unfold newComputer
  cases hsettings : settings.presetSettings with
  | error e => exact .inl ⟨refused_of_presetSettings hsettings, _, rfl⟩
  | ok presets =>
    have hbecome := Settings.presetSettings_eq_ok_iff.mp hsettings
    have hrefused : ∀ p ∈ settings.presets, (Refused p ↔ Strays p) := fun p hp => by
      obtain ⟨setting, hsetting⟩ := Settings.exists_forall₂_iff.mp ⟨presets, hbecome⟩ p hp
      exact refused_iff_of_becomes hsetting
    obtain ⟨base, hsize, hread, hbase⟩ := exists_base program.rom (!program.startsItself && !settings.hasPreset 0) presets
    simp only [Computer.new, hbase]
    rcases Computer.configureAll_presets hbecome (c := { rom := program.rom, ram := base }) hsize with
      ⟨⟨p, hp, hstrays⟩, hfailed⟩ | ⟨hfree, m, hconfigured, hm, hleaves⟩
    · refine .inl ⟨⟨p, hp, (hrefused p hp).mpr hstrays⟩, ?_⟩
      generalize Computer.configureAll _ presets = result at hfailed ⊢
      obtain ⟨c, _ | e⟩ := result
      · exact absurd rfl hfailed
      · exact ⟨_, rfl⟩
    · refine .inr ⟨fun p hp => mt (hrefused p hp).mp (hfree p hp), m, ?_, hm, fun addr => ?_⟩
      · rw [hconfigured]
        rfl
      · exact holds_of_leaves (hread addr) (hleaves addr)

theorem Holds.of_perm {presets order : List (Bytes × Int)} {startsItself : Bool} {addr : Nat} {w : Word}
    (hperm : order.Perm presets) (h : Holds order startsItself addr w) : Holds presets startsItself addr w := by
  cases h with
  | preset listed denotes value => exact .preset (hperm.mem_iff.mp listed) denotes value
  | stack free pointer needed => exact .stack (fun p hp => free p (hperm.mem_iff.mpr hp)) pointer needed
  | blank free other => exact .blank (fun p hp => free p (hperm.mem_iff.mpr hp)) other

/-- Presets reach memory in whatever order they are visited. A computer can be made for a program exactly if no preset is
refused; it then has a whole memory, in which each address holds what it may hold, and the program, and is otherwise new. -/
theorem presets_reach_memory (settings : Settings) {order : List (Bytes × Int)} (hperm : order.Perm settings.presets)
    (program : Program) :
    ((∃ e, newComputer { settings with presets := order } program = .error e) ↔ ∃ p ∈ settings.presets, Refused p) ∧
      ∀ c, newComputer { settings with presets := order } program = .ok c →
        c = { rom := program.rom, ram := c.ram } ∧ c.ram.size = 32768 ∧
          ∀ addr < 32768, ∃ w, c.ram.get? addr = some w ∧ Holds settings.presets program.startsItself addr w := by
  rcases newComputer_cases { settings with presets := order } program with
    ⟨⟨p, hp, hrefused⟩, e, he⟩ | ⟨hnone, m, hm, hsize, hholds⟩
  · rw [he]
    exact ⟨iff_of_true ⟨e, rfl⟩ ⟨p, hperm.mem_iff.mp hp, hrefused⟩, fun c hc => absurd hc (by simp)⟩
  · rw [hm]
    refine ⟨iff_of_false (by simp) fun ⟨p, hp, hrefused⟩ => hnone p (hperm.mem_iff.mpr hp) hrefused, fun c hc => ?_⟩
    obtain rfl := Except.ok.inj hc
    refine ⟨rfl, hsize, fun addr haddr => ⟨m.read addr, ?_, (hholds addr).of_perm hperm⟩⟩
    rw [Memory.get?, if_pos (hsize.symm ▸ haddr)]

/-- Two names of address zero, visited in either order: one of their values is found there, and the stack pointer is not set. -/
theorem presets_reach_memory_aliases :
    let settings : Settings := { presets := [(ascii "SP", 65535), (ascii "-0", 300)] }
    let order : List (Bytes × Int) := [(ascii "-0", 300), (ascii "SP", 65535)]
    order.Perm settings.presets ∧ (∀ p ∈ settings.presets, ¬Refused p) ∧
      ∃ c, newComputer { settings with presets := order } ⟨#[], false⟩ = .ok c ∧
        (∃ w, c.ram.get? 0 = some w ∧ (w.signed = -1 ∨ w.signed = 300)) ∧ c.ram.get? 1 = some 0 := by
  intro settings order
  have hperm : order.Perm settings.presets := .swap _ _ _
  have hzero : ∀ p ∈ settings.presets, Denotes p.1 0 := by
    simp only [← Settings.presetAddress?_eq_some_iff]
    decide
  have hwords : ∀ p ∈ settings.presets, ¬(p.2 < -32768 ∨ 65535 < p.2) := by decide
  have hnone : ∀ p ∈ settings.presets, ¬Refused p := by
    rintro p hp (hnamed | hvalue | ⟨addr, hdenotes, haddr⟩)
    · exact hnamed 0 (hzero p hp)
    · exact hwords p hp hvalue
    · obtain rfl := hdenotes.unique (hzero p hp)
      omega
  obtain ⟨hfails, hmade⟩ := presets_reach_memory settings hperm ⟨#[], false⟩
  refine ⟨hperm, hnone, ?_⟩
  generalize newComputer { settings with presets := order } ⟨#[], false⟩ = result at hfails hmade
  cases result with
  | error e =>
    obtain ⟨p, hp, hrefused⟩ := hfails.mp ⟨e, rfl⟩
    exact absurd hrefused (hnone p hp)
  | ok c =>
    obtain ⟨-, -, hmemory⟩ := hmade c rfl
    obtain ⟨w, hw, hholds⟩ := hmemory 0 (by decide)
    obtain ⟨w', hw', hholds'⟩ := hmemory 1 (by decide)
    refine ⟨c, rfl, ⟨w, hw, ?_⟩, ?_⟩
    · cases hholds with
      | @preset p _ listed denotes value =>
        have hvalues : ∀ p ∈ settings.presets, p.2.bmod 65536 = -1 ∨ p.2.bmod 65536 = 300 := by decide
        rw [value]
        exact hvalues p listed
      | stack free pointer needed => exact absurd (hzero _ List.mem_cons_self) (free _ List.mem_cons_self)
      | blank free other => exact absurd (hzero _ List.mem_cons_self) (free _ List.mem_cons_self)
    · cases hholds' with
      | preset listed denotes value => exact absurd (denotes.unique (hzero _ listed)) (by decide)
      | stack free pointer needed => exact absurd pointer (by decide)
      | blank free other => exact hw'

end Console

end HackPlatform
