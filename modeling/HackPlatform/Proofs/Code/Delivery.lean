import HackPlatform.Proofs.Code.History
import HackPlatform.Proofs.Stream.Delivery

/-!
# Writers lose no output silently

The operations that are not refused while a writer is open hand their blocks to its stream (`offered`). The stream passes a
first part of them on to the sink, and all of them unless it fails (`delivers_run`). A writer that is closed, or whose stream has
failed, is spent: it fails at every operation that can fail and adds nothing to its sink (`run_of_spent`). Every failure of
the stream that a writer reports leaves it spent (`spent_of_isStream`).
-/

namespace HackPlatform.Code

open Stack (Command)

/-! ## What the sink gets -/

/-- The block that an operation hands to the stream. -/
def Operation.offer (w : Writer) (op : Operation) : Block := if w.closed then [] else op.block w.scope

/-- The blocks that operations hand to the stream, one after the other. -/
def offered (w : Writer) : List Operation → Block
  | [] => []
  | op :: rest => op.offer w ++ offered (op.apply w).1 rest

namespace Writer

theorem stream_perform {w : Writer} {c : Command} {block : Block} {scope : Scope} (hopen : w.closed = false)
    (hlower : w.scope.lower c = .ok (block, scope)) : (w.perform c).1.stream = (w.stream.write block.text).1 := by
  unfold perform emit
  simp only [hlower, hopen, Bool.false_eq_true, if_false]
  cases (w.stream.write block.text).1.failure <;> rfl

variable {origin : Stream.Sink} {given : Bytes}

theorem delivers_perform {w : Writer} {c : Command} {block : Block} {scope : Scope}
    (h : w.stream.Delivers origin given) (hopen : w.closed = false) (hlower : w.scope.lower c = .ok (block, scope)) :
    (w.perform c).1.stream.Delivers origin (given ++ block.text) := by
  rw [stream_perform hopen hlower]
  exact h.write block.text

theorem delivers_bootstrap {w : Writer} {block : Block} {scope : Scope} (h : w.stream.Delivers origin given)
    (hopen : w.closed = false) (hlower : Operation.bootstrap.lower w.scope = .ok (block, scope)) :
    w.bootstrap.1.stream.Delivers origin (given ++ block.text) := by
  obtain ⟨rfl, -⟩ := Prod.mk.inj (Except.ok.inj ((Operation.lower_bootstrap w.scope).symm.trans hlower))
  have hreset := h.write Block.resetStack.text
  rw [Block.text_append, ← List.append_assoc]
  unfold bootstrap emit
  simp only [hopen, Bool.false_eq_true, if_false]
  cases hfailure : (w.stream.write Block.resetStack.text).1.failure with
  | some e => exact ⟨hreset.outlet.extend (hreset.failure (by simp [hfailure])) _, hreset.failure⟩
  | none => exact delivers_perform hreset rfl w.scope.lower_entryPoint

theorem delivers_flushStream {s : Stream.Guarded Stream.Buffered} (h : s.Delivers origin given) :
    (flushStream s).1.Delivers origin given := by
  unfold flushStream
  cases hfailure : s.failure with
  | some e => exact h
  | none => exact ⟨h.outlet.flush, by simp⟩

theorem delivers_close {w : Writer} (h : w.stream.Delivers origin given) (hopen : w.closed = false) :
    w.close.1.stream.Delivers origin.close.1 given := by
  rw [stream_close hopen]
  exact ⟨(delivers_flushStream h).outlet.close, (delivers_flushStream h).failure⟩

end Writer

namespace Operation

variable {origin : Stream.Sink} {given : Bytes} {w : Writer}

theorem delivers_apply_of_open (h : w.stream.Delivers origin given) (hopen : w.closed = false) {op : Operation}
    (hop : op ≠ .close) : (op.apply w).1.stream.Delivers origin (given ++ (op.block w.scope).text) := by
  cases hlower : op.lower w.scope with
  | error refusal =>
    have hblock : op.block w.scope = [] := by rw [Operation.block, hlower]
    rw [(apply_of_refused hlower).1, hblock]
    simpa [Block.text] using h
  | ok result =>
    obtain ⟨block, scope⟩ := result
    rw [block_of_lower hlower]
    cases op with
    | file name =>
      obtain ⟨rfl, -⟩ := Prod.mk.inj (Except.ok.inj hlower)
      show w.stream.Delivers origin _
      simpa [Block.text] using h
    | bootstrap => exact Writer.delivers_bootstrap h hopen hlower
    | command c => exact Writer.delivers_perform h hopen hlower
    | access kind segment index =>
      cases kind with
      | push => exact Writer.delivers_perform h hopen hlower
      | pop => exact Writer.delivers_perform h hopen hlower
      | _ => exact absurd hlower (by simp [lower])
    | located c =>
      have hperform := Writer.delivers_perform h hopen hlower
      rwa [← fst_write w c] at hperform
    | flush =>
      have hstream : w.flush.1.stream = (Writer.flushStream w.stream).1 := by simp [Writer.flush, hopen]
      obtain ⟨rfl, -⟩ := Prod.mk.inj (Except.ok.inj hlower)
      show w.flush.1.stream.Delivers origin _
      simpa [hstream, Block.text] using Writer.delivers_flushStream h
    | close => exact absurd rfl hop

end Operation

/-! ## Spent writers -/

/-- Can the operation fail? A writer has no objections to a file name. -/
def Operation.canFail : Operation → Bool
  | file _ => false
  | _ => true

namespace Writer

/-- Nothing more gets through the writer: it is closed, or its stream has failed. -/
def Spent (w : Writer) : Prop := w.closed = true ∨ ¬w.Intact

variable {w : Writer}

theorem emit_of_spent (h : w.Spent) (block : Block) : (w.emit block).1.sink = w.sink ∧ (w.emit block).2 ≠ none := by
  unfold emit
  split
  · exact ⟨rfl, by simp⟩
  · rename_i hopen
    obtain ⟨hfailure, houtlet⟩ := Stream.Guarded.write_of_not_intact (h.resolve_left hopen) block.text
    exact ⟨congrArg Stream.Buffered.sink houtlet, by simpa using hfailure⟩

theorem perform_of_spent (h : w.Spent) (c : Command) : (w.perform c).1.sink = w.sink ∧ (w.perform c).2 ≠ none := by
  unfold perform
  split
  · exact ⟨rfl, by simp⟩
  · rename_i block scope _
    obtain ⟨hsink, hfailed⟩ := emit_of_spent h block
    split
    · rename_i hemit
      rw [hemit] at hsink
      exact ⟨hsink, by simp⟩
    · rename_i hemit
      exact absurd (congrArg Prod.snd hemit) hfailed

theorem bootstrap_of_spent (h : w.Spent) : w.bootstrap.1.sink = w.sink ∧ w.bootstrap.2 ≠ none := by
  obtain ⟨hsink, hfailed⟩ := emit_of_spent h Block.resetStack
  unfold bootstrap
  split
  · rename_i hemit
    rw [hemit] at hsink
    exact ⟨hsink, by simp⟩
  · rename_i hemit
    exact absurd (congrArg Prod.snd hemit) hfailed

theorem flushStream_of_not_intact {s : Stream.Guarded Stream.Buffered} (h : ¬s.Intact) :
    (flushStream s).1.outlet.sink = s.outlet.sink ∧ (flushStream s).2 ≠ none := by
  unfold flushStream
  cases hfailure : s.failure with
  | some e => exact ⟨rfl, by simp⟩
  | none =>
    cases hfault : s.outlet.fault with
    | none => exact absurd ⟨hfailure, hfault⟩ h
    | some f => simp [Stream.Buffered.flush_of_fault hfault]

theorem flush_of_spent (h : w.Spent) : w.flush.1.sink = w.sink ∧ w.flush.2 ≠ none := by
  unfold flush
  split
  · exact ⟨rfl, by simp⟩
  · rename_i hopen
    obtain ⟨hsink, hfailed⟩ := flushStream_of_not_intact (h.resolve_left hopen)
    exact ⟨hsink, by simpa using hfailed⟩

theorem close_of_spent (h : w.Spent) : w.close.1.sink.contents = w.sink.contents ∧ w.close.2 ≠ none := by
  cases hclosed : w.closed with
  | true => simp [close_of_closed hclosed]
  | false =>
    obtain ⟨hsink, hfailed⟩ := flushStream_of_not_intact (h.resolve_left (by simp [hclosed]))
    refine ⟨?_, fun hnone => hfailed ((close_eq_none_iff hclosed).mp hnone).1⟩
    rw [contents_close_of_open hclosed, hsink, sink]

end Writer

namespace Operation

variable {w : Writer}

theorem apply_of_spent (h : w.Spent) {op : Operation} (hop : op ≠ .close) :
    (op.apply w).1.sink = w.sink ∧ (op.canFail → (op.apply w).2 ≠ none) := by
  cases op with
  | file name => exact ⟨rfl, by simp [canFail]⟩
  | bootstrap => exact (Writer.bootstrap_of_spent h).imp_right fun hfailed _ => hfailed
  | command c => exact (Writer.perform_of_spent h c).imp_right fun hfailed _ => hfailed
  | access kind segment index =>
    cases kind with
    | push => exact (Writer.perform_of_spent h _).imp_right fun hfailed _ => hfailed
    | pop => exact (Writer.perform_of_spent h _).imp_right fun hfailed _ => hfailed
    | _ => exact ⟨rfl, fun _ => by simp [apply, Writer.access]⟩
  | located c =>
    obtain ⟨hsink, hfailed⟩ := Writer.perform_of_spent h c.item
    exact ⟨(congrArg Writer.sink (fst_write w c)).trans hsink, fun _ => mt (snd_write_eq_none_iff w c).mp hfailed⟩
  | flush => exact (Writer.flush_of_spent h).imp_right fun hfailed _ => hfailed
  | close => exact absurd rfl hop

theorem closed_apply_of_closed (h : w.closed = true) (op : Operation) : (op.apply w).1.closed = true := by
  by_cases hop : op = .close
  · rw [hop]
    exact w.closed_close
  · exact (closed_apply hop w).trans h

theorem spent_apply (h : w.Spent) (op : Operation) : (op.apply w).1.Spent :=
  h.imp (closed_apply_of_closed · op) fun hbroken => ((op.stepped w).broken hbroken).1

theorem spent_of_isStream {op : Operation} {e : Writer.Error} (h : (op.apply w).2 = some e) (he : e.isStream) :
    (op.apply w).1.Spent := by
  by_cases hop : op = .close
  · rw [hop]
    exact .inl w.closed_close
  · cases hclosed : w.closed with
    | true => exact .inl (closed_apply_of_closed hclosed op)
    | false =>
      cases hlower : op.lower w.scope with
      | error refusal =>
        obtain ⟨-, e', hanswer, hrefused⟩ := apply_of_refused hlower
        obtain rfl := Option.some.inj (h.symm.trans hanswer)
        exact absurd he (by simp [hrefused])
      | ok result => exact .inr (not_intact_of_apply hclosed hlower hop (by simp [h]))

end Operation

/-! ## Runs -/

theorem run_append (w : Writer) (xs ys : List Operation) : run w (xs ++ ys) = run (run w xs) ys := by
  induction xs generalizing w with
  | nil => rfl
  | cons op rest ih => exact ih (op.apply w).1

theorem offered_append (w : Writer) (xs ys : List Operation) :
    offered w (xs ++ ys) = offered w xs ++ offered (run w xs) ys := by
  induction xs generalizing w with
  | nil => rfl
  | cons op rest ih => rw [List.cons_append, offered, offered, ih, List.append_assoc, run]

theorem closed_run (w : Writer) (ops : List Operation) : (run w ops).closed = true ↔ w.closed = true ∨ .close ∈ ops := by
  induction ops generalizing w with
  | nil => simp [run]
  | cons op rest ih =>
    rw [run, ih, List.mem_cons]
    by_cases hop : op = .close
    · rw [hop]
      simp [Operation.apply, w.closed_close]
    · rw [op.closed_apply hop]
      simp [Ne.symm hop]

theorem open_run {w : Writer} {ops : List Operation} (hopen : w.closed = false) (hops : .close ∉ ops) :
    (run w ops).closed = false :=
  Bool.eq_false_iff.mpr fun hclosed => ((closed_run w ops).mp hclosed).elim (by simp [hopen]) hops

theorem run_of_spent {w : Writer} (h : w.Spent) (ops : List Operation) :
    (run w ops).sink.contents = w.sink.contents ∧ ∀ answer ∈ answers w ops, answer.1.canFail → answer.2 ≠ none := by
  induction ops generalizing w with
  | nil => simp [run, answers]
  | cons op rest ih =>
    obtain ⟨hcontents, hanswers⟩ := ih (op.spent_apply h)
    -- only `close` may do something to the sink, but it leaves the contents alone
    have hstep : (op.apply w).1.sink.contents = w.sink.contents ∧ (op.canFail → (op.apply w).2 ≠ none) := by
      by_cases hop : op = .close
      · rw [hop]
        exact (Writer.close_of_spent h).imp_right fun hfailed _ => hfailed
      · exact (op.apply_of_spent h hop).imp_left (congrArg Stream.Sink.contents)
    refine ⟨hcontents.trans hstep.1, fun answer hanswer => ?_⟩
    rcases List.mem_cons.mp hanswer with rfl | hanswer
    · exact hstep.2
    · exact hanswers answer hanswer

theorem run_of_closed {w : Writer} (h : w.closed = true) (ops : List Operation) : (run w ops).sink = w.sink := by
  induction ops generalizing w with
  | nil => rfl
  | cons op rest ih =>
    rw [run, ih (op.closed_apply_of_closed h)]
    by_cases hop : op = .close
    · rw [hop]
      exact congrArg (Writer.sink ∘ Prod.fst) (Writer.close_of_closed h)
    · exact (op.apply_of_spent (.inl h) hop).1

theorem spent_run {w : Writer} (h : w.Spent) (ops : List Operation) : (run w ops).Spent := by
  induction ops generalizing w with
  | nil => exact h
  | cons op rest ih => exact ih (op.spent_apply h)

theorem spent_of_answers {w : Writer} {ops : List Operation}
    (h : ∃ answer ∈ answers w ops, ∃ e, answer.2 = some e ∧ e.isStream) : (run w ops).Spent := by
  obtain ⟨answer, hmem, e, hanswer, he⟩ := h
  induction ops generalizing w with
  | nil => exact absurd hmem (by simp [answers])
  | cons op rest ih =>
    rcases List.mem_cons.mp hmem with rfl | hmem
    · exact spent_run (op.spent_of_isStream hanswer he) rest
    · exact ih hmem

theorem delivers_run {w : Writer} {origin : Stream.Sink} {given : Bytes} (h : w.stream.Delivers origin given)
    (hopen : w.closed = false) {ops : List Operation} (hops : .close ∉ ops) :
    (run w ops).stream.Delivers origin (given ++ (offered w ops).text) := by
  induction ops generalizing w given with
  | nil => simpa [run, offered, Block.text] using h
  | cons op rest ih =>
    simp only [List.mem_cons, not_or] at hops
    have hoffer : op.offer w = op.block w.scope := by simp [Operation.offer, hopen]
    rw [run, offered, hoffer, Block.text_append, ← List.append_assoc]
    exact ih (op.delivers_apply_of_open h hopen (Ne.symm hops.1)) ((op.closed_apply (Ne.symm hops.1) w).trans hopen) hops.2

/-- The sink has a first part of what it was offered, and is closed with the writer. -/
theorem sink_run {w : Writer} {origin : Stream.Sink} {given : Bytes} (h : w.stream.Delivers origin given)
    (hopen : w.closed = false) (ops : List Operation) :
    (run w ops).sink.contents <+: given ++ (offered w ops).text ∧
      (run w ops).sink.closes = if .close ∈ ops then origin.close.1.closes else origin.closes := by
  by_cases hops : .close ∈ ops
  · -- what comes before the first `close` is delivered, and nothing happens to the sink behind it
    obtain ⟨before, later, rfl, hbefore⟩ := List.eq_append_cons_of_mem hops
    have hclosed := Writer.delivers_close (delivers_run h hopen hbefore) (open_run hopen hbefore)
    have hcloses := congrArg Stream.Sink.closes hclosed.outlet.frame
    have hsink : (run w (before ++ .close :: later)).sink = (run w before).close.1.sink := by
      rw [run_append]
      exact run_of_closed (run w before).closed_close later
    rw [hsink, if_pos hops, offered_append, Block.text_append, ← List.append_assoc]
    exact ⟨hclosed.outlet.part.trans (List.prefix_append _ _), hcloses⟩
  · have hrun := delivers_run h hopen hops
    have hcloses := congrArg Stream.Sink.closes hrun.outlet.frame
    rw [if_neg hops]
    exact ⟨hrun.outlet.part, hcloses⟩

theorem Writer.close_eq_none_iff_delivered {w : Writer} {origin : Stream.Sink} {given : Bytes}
    (h : w.stream.Delivers origin given) (hopen : w.closed = false) :
    w.close.2 = none ↔ w.close.1.sink.contents = given ∧ w.sink.close.2 = none := by
  have hflushed := delivers_flushStream h
  have hdelivered : (flushStream w.stream).2 = none ↔ (flushStream w.stream).1.outlet.sink.contents = given := by
    constructor
    · intro hnone
      obtain ⟨hfault, hbuffer⟩ := emptied_of_flushStream hnone
      simpa [Stream.Buffered.taken, hbuffer] using hflushed.outlet.taken hfault
    · intro hall
      by_cases hanswer : (flushStream w.stream).2 = none
      · exact hanswer
      · -- a flush that fails leaves the sink with less than was given
        have hlost := hflushed.outlet.lost (mt hflushed.intact_iff.mpr (not_intact_of_flushStream hanswer))
        exact absurd (congrArg List.length hall) (Nat.ne_of_lt hlost)
  have hclose : (flushStream w.stream).1.outlet.sink.close.2 = w.sink.close.2 := by
    rw [sink, hflushed.outlet.close_sink, h.outlet.close_sink]
  rw [close_eq_none_iff hopen, hdelivered, contents_close_of_open hopen, hclose]

/-! ## New writers -/

theorem Writer.delivers_new (sink : Stream.Sink) : (new sink).stream.Delivers sink sink.contents where
  outlet := .intact rfl rfl (by simp [new, Stream.Buffered.taken])
  failure h := absurd rfl h

/-- No output is lost silently, whatever is asked of a writer and whatever its sink does. At every moment the sink holds
a first part of the blocks that it was offered while the writer was open. The first `close` succeeds exactly if it
holds them all then, and its own end was closed. Once a failure of the stream was reported, everything that can fail does,
and the contents of the sink stay. The sink is closed once, by the first `close`, and after it nothing happens to the sink and
everything that can fail does. -/
theorem no_silent_loss (sink : Stream.Sink) (ops : List Operation) :
    let w := run (Writer.new sink) ops
    let given := sink.contents ++ (offered (Writer.new sink) ops).text
    w.sink.contents <+: given ∧
    (.close ∉ ops → (w.close.2 = none ↔ w.close.1.sink.contents = given ∧ w.sink.close.2 = none)) ∧
    ((∃ answer ∈ answers (Writer.new sink) ops, ∃ e, answer.2 = some e ∧ e.isStream) → ∀ later,
      (run w later).sink.contents = w.sink.contents ∧ ∀ answer ∈ answers w later, answer.1.canFail → answer.2 ≠ none) ∧
    w.sink.closes = sink.closes + (if sink.closable ∧ .close ∈ ops then 1 else 0) ∧
    (.close ∈ ops → ∀ later,
      (run w later).sink = w.sink ∧ ∀ answer ∈ answers w later, answer.1.canFail → answer.2 ≠ none) := by
  intro w given
  have hnew := Writer.delivers_new sink
  obtain ⟨hpart, hcloses⟩ := sink_run hnew rfl ops
  refine ⟨hpart, fun hops => ?_, fun hstream later => run_of_spent (spent_of_answers hstream) later, ?_, fun hops later => ?_⟩
  · exact Writer.close_eq_none_iff_delivered (delivers_run hnew rfl hops) (open_run rfl hops)
  · refine hcloses.trans ?_
    by_cases hops : .close ∈ ops <;> by_cases hclosable : sink.closable <;> simp [hops, hclosable, Stream.Sink.close]
  · have hclosed : w.closed = true := (closed_run _ ops).mpr (.inr hops)
    exact ⟨run_of_closed hclosed later, (run_of_spent (.inl hclosed) later).2⟩

/-- A sink for three bytes. The code of a push waits in the buffer, so that the flush is the first to fail. -/
theorem no_silent_loss_full_sink :
    let sink : Stream.Sink := { limit := some 3, closable := true }
    let ops : List Operation := [.command (.push .constant 7), .flush]
    let w := run (Writer.new sink) ops
    (answers (Writer.new sink) ops).map Prod.snd = [none, some (.stream ⟨.flush, .full⟩)] ∧
      (∀ later, (run w later).sink.contents = ascii "@7\n") ∧ w.close.2 ≠ none ∧
      (run (Writer.new sink) (ops ++ [.close])).sink.closes = 1 := by
  intro sink ops w
  obtain ⟨-, -, hfailed, -⟩ := no_silent_loss sink ops
  obtain ⟨-, -, -, hcloses, -⟩ := no_silent_loss sink (ops ++ [.close])
  have hcontents : w.sink.contents = ascii "@7\n" := by decide +kernel
  have hstream := hfailed ⟨(.flush, some (.stream ⟨.flush, .full⟩)), by decide +kernel, _, rfl, rfl⟩
  exact ⟨by decide +kernel, fun later => (hstream later).1.trans hcontents,
    (hstream [.close]).2 (.close, w.close.2) (List.mem_singleton_self _) rfl, hcloses⟩

end HackPlatform.Code
