import HackPlatform.Proofs.Code.History

/-!
# Failed operations leave no trace

An open writer whose sink has no limit is ready: it fails at an operation only by refusing it, and then it stays as it is
(`Ready.apply_eq_self`). So the operations of a run that fail can be left out, and the writer that is left and its answers to the
others are the same (`Ready.accepted_same`).
-/

namespace HackPlatform.Code

/-- A writer that is open, and whose stream can take whatever comes. -/
structure Writer.Ready (w : Writer) : Prop where
  isOpen : w.closed = false
  unlimited : w.sink.limit = none
  intact : w.Intact

namespace Writer.Ready

variable {w : Writer}

theorem new {sink : Stream.Sink} (h : sink.limit = none) : (Writer.new sink).Ready :=
  ⟨rfl, h, intact_new sink⟩

theorem apply (h : w.Ready) {op : Operation} (hop : op ≠ .close) : (op.apply w).1.Ready where
  isOpen := (op.closed_apply hop w).trans h.isOpen
  unlimited := (op.stepped w).limit.trans h.unlimited
  intact := (op.stepped w).unlimited h.unlimited h.intact

theorem run (h : w.Ready) {ops : List Operation} (hops : .close ∉ ops) : (run w ops).Ready := by
  induction ops generalizing w with
  | nil => exact h
  | cons op rest ih =>
    simp only [List.mem_cons, not_or] at hops
    exact ih (h.apply (Ne.symm hops.1)) hops.2

theorem apply_eq_self (h : w.Ready) {op : Operation} (hop : op ≠ .close) (hfailed : (op.apply w).2 ≠ none) :
    (op.apply w).1 = w := by
  cases hlower : op.lower w.scope with
  | error refusal => exact (op.apply_of_refused hlower).1
  | ok result => exact absurd (op.apply_of_unlimited h.isOpen h.unlimited h.intact hlower hop) hfailed

/-- Induction on the operations. Where one fails the writer is the same afterwards, so both runs go on from there. -/
theorem accepted_same (h : w.Ready) {ops : List Operation} (hops : .close ∉ ops) :
    Code.run w (accepted w ops) = Code.run w ops ∧
      answers w (accepted w ops) = (answers w ops).filter (·.2 = none) := by
  induction ops generalizing w with
  | nil => exact ⟨rfl, rfl⟩
  | cons op rest ih =>
    simp only [List.mem_cons, not_or] at hops
    obtain ⟨hrun, hanswers⟩ := ih (h.apply (Ne.symm hops.1)) hops.2
    rw [accepted, Code.run, answers, ← hrun]
    by_cases hanswer : (op.apply w).2 = none
    · rw [if_pos hanswer, List.filter_cons_of_pos (by simpa using hanswer), ← hanswers]
      exact ⟨rfl, rfl⟩
    · rw [if_neg hanswer, List.filter_cons_of_neg (by simpa using hanswer), ← hanswers,
        h.apply_eq_self (Ne.symm hops.1) hanswer]
      exact ⟨rfl, rfl⟩

end Writer.Ready

/-- Failed operations leave no trace: where the sink has no limit, a run without its failed operations leaves the same
writer (its output, counters and current function), and every other operation has the same answer. -/
theorem failed_operations_leave_no_trace {sink : Stream.Sink} (hlimit : sink.limit = none) {before ops : List Operation}
    (hopen : .close ∉ before) (hops : .close ∉ ops) :
    let w := run (Writer.new sink) before
    run w (accepted w ops) = run w ops ∧ answers w (accepted w ops) = (answers w ops).filter (·.2 = none) := by
  intro w
  have hready : w.Ready := (Writer.Ready.new hlimit).run hopen
  exact hready.accepted_same hops

/-- A call of a name that is none, a negative number of arguments and a negative index, among calls and comparisons,
which are numbered. -/
theorem failed_operations_leave_no_trace_calls :
    let w := run (Writer.new {}) [.file (ascii "A")]
    let ops : List Operation :=
      [.access .push .static (-1), .command (.function (ascii "A.f") 0), .command (.call (ascii "3x") 0),
        .command (.call (ascii "A.f") (-1)), .command (.call (ascii "A.f") 1), .command (.arithmetic (.unknown 9)),
        .command (.arithmetic .eq)]
    .close ∉ ops ∧
      accepted w ops = [.command (.function (ascii "A.f") 0), .command (.call (ascii "A.f") 1), .command (.arithmetic .eq)] ∧
      run w (accepted w ops) = run w ops ∧ answers w (accepted w ops) = (answers w ops).filter (·.2 = none) := by
  intro w ops
  have hops : .close ∉ ops := by decide
  have haccepted : accepted w ops = unrefused w.scope ops := accepted_eq_unrefused rfl rfl ⟨rfl, rfl⟩ hops
  have hunrefused : unrefused w.scope ops =
      [.command (.function (ascii "A.f") 0), .command (.call (ascii "A.f") 1), .command (.arithmetic .eq)] := by
    decide +kernel
  exact ⟨hops, haccepted.trans hunrefused, failed_operations_leave_no_trace rfl (by decide) hops⟩

end HackPlatform.Code
