import HackPlatform.Code.Writer
import HackPlatform.Proofs.Stream.Order

/-!
# What a writer has written

An operation on a writer has a block, which depends on the scope only (`Operation.lower`). If it succeeds its block is written and
the scope moves on; if it fails the scope stays, and nothing is written unless the stream breaks. So what a writer has written
is the code of the operations that succeeded, where each finds the scope that those before it left (`code`), and a part of
the block of the one that broke the stream (`emitted_run`). A sink without a limit never breaks it (`intact_run`).
-/

namespace HackPlatform.Code

open Stack (Kind Segment Command)

/-! ## Operations and their code -/

/-- What can be asked of a writer. -/
inductive Operation where
  | file (name : Bytes)
  | bootstrap
  | command (c : Command)
  | access (kind : Kind) (segment : Segment) (index : Int64)
  | located (c : Located Command)
  | flush
  | close
deriving DecidableEq

namespace Operation

def apply (w : Writer) : Operation → Writer × Option Writer.Error
  | file name => (w.setFile name, none)
  | bootstrap => w.bootstrap
  | command c => w.perform c
  | access kind segment index => w.access kind segment index
  | located c => w.write c
  | flush => w.flush
  | close => w.close

def command? : Operation → Option Command
  | bootstrap => some (.call Writer.entryPoint 0)
  | command c => some c
  | access .push segment index => some (.push segment index)
  | access .pop segment index => some (.pop segment index)
  | located c => some c.item
  | _ => none

/-- The block of an operation, and the scope after it. -/
def lower (s : Scope) : Operation → Except Refusal (Block × Scope)
  | file name => .ok ([], { s with file := name })
  | bootstrap =>
    match s.lower (.call Writer.entryPoint 0) with
    | .ok (block, s') => .ok (Block.resetStack ++ block, s')
    | .error r => .error r
  | access .push segment index => s.lower (.push segment index)
  | access .pop segment index => s.lower (.pop segment index)
  | access kind _ _ => .error (.notPushOrPop kind)
  | command c => s.lower c
  | located c => s.lower c.item
  | flush | close => .ok ([], s)

/-- The block of an operation; none if it is refused. -/
def block (s : Scope) (op : Operation) : Block :=
  match op.lower s with
  | .ok (block, _) => block
  | .error _ => []

def after (s : Scope) (op : Operation) : Scope :=
  match op.lower s with
  | .ok (_, s') => s'
  | .error _ => s

theorem block_of_lower {s s' : Scope} {op : Operation} {block : Block} (h : op.lower s = .ok (block, s')) :
    op.block s = block := by
  rw [Operation.block, h]

theorem after_of_lower {s s' : Scope} {op : Operation} {block : Block} (h : op.lower s = .ok (block, s')) :
    op.after s = s' := by
  rw [after, h]

end Operation

/-- Operations with the scopes that they find, if each starts where the one before it ends. -/
def trace (s : Scope) : List Operation → List (Scope × Operation)
  | [] => []
  | op :: rest => (s, op) :: trace (op.after s) rest

/-- None of the operations is refused in the scope that it finds. -/
def Lowerable (s : Scope) (ops : List Operation) : Prop :=
  ∀ x ∈ trace s ops, x.2.lower x.1 = .ok (x.2.block x.1, x.2.after x.1)

theorem Lowerable.head {s : Scope} {op : Operation} {rest : List Operation} (h : Lowerable s (op :: rest)) :
    op.lower s = .ok (op.block s, op.after s) := h (s, op) (by simp [trace])

theorem Lowerable.tail {s : Scope} {op : Operation} {rest : List Operation} (h : Lowerable s (op :: rest)) :
    Lowerable (op.after s) rest := fun x hx => h x (by simp [trace, hx])

theorem Lowerable.cons {s : Scope} {op : Operation} {rest : List Operation} {result : Block × Scope}
    (h : op.lower s = .ok result) (hrest : Lowerable (op.after s) rest) : Lowerable s (op :: rest) := by
  intro x hx
  rcases List.mem_cons.mp hx with rfl | hx
  · rw [Operation.block_of_lower h, Operation.after_of_lower h, h]
  · exact hrest x hx

/-- Performs operations one after the other, whether they succeed or not. -/
def run (w : Writer) : List Operation → Writer
  | [] => w
  | op :: rest => run (op.apply w).1 rest

/-- The operations of a run that succeed. -/
def accepted (w : Writer) : List Operation → List Operation
  | [] => []
  | op :: rest => if (op.apply w).2 = none then op :: accepted (op.apply w).1 rest else accepted (op.apply w).1 rest

/-- The operations of a run with what the writer answers to each. -/
def answers (w : Writer) : List Operation → List (Operation × Option Writer.Error)
  | [] => []
  | op :: rest => (op, (op.apply w).2) :: answers (op.apply w).1 rest

/-- The code of operations, of which each finds the scope that those before it left. -/
def code (s : Scope) (ops : List Operation) : Block := (trace s ops).flatMap fun x => x.2.block x.1

theorem code_cons (s : Scope) (op : Operation) (rest : List Operation) :
    code s (op :: rest) = op.block s ++ code (op.after s) rest := rfl

theorem Block.text_append (xs ys : Block) : Block.text (xs ++ ys) = xs.text ++ ys.text := by
  simp [Block.text]

theorem Scope.lower_entryPoint (s : Scope) : s.lower (.call Writer.entryPoint 0) =
    .ok (Block.call Writer.entryPoint (s.returnLabel Writer.entryPoint) 0, { s with calls := s.calls + 1 }) := by
  have hname : isIdentifier Writer.entryPoint = true := by decide
  simp [Scope.lower, Scope.call, hname]

theorem Operation.lower_bootstrap (s : Scope) : Operation.lower s .bootstrap =
    .ok (Block.resetStack ++ Block.call Writer.entryPoint (s.returnLabel Writer.entryPoint) 0,
      { s with calls := s.calls + 1 }) := by
  rw [Operation.lower, s.lower_entryPoint]

namespace Writer

/-- What a writer has written: the bytes that its stream has taken. -/
def emitted (w : Writer) : Bytes := w.stream.outlet.taken

/-- The stream of the writer has not failed. -/
def Intact (w : Writer) : Prop := w.stream.Intact

/-! ## One operation -/

/-- What an operation with a given block does to a writer that it takes from `w` to `w'`. -/
structure Stepped (w w' : Writer) (answer : Option Error) (lowered : Except Refusal (Block × Scope)) : Prop where
  done : answer = none → ∃ block, lowered = .ok (block, w'.scope) ∧ w'.emitted = w.emitted ++ block.text
  scope : answer ≠ none → w'.scope = w.scope
  part : answer ≠ none → w'.emitted = w.emitted ∨
    ¬w'.Intact ∧ ∃ block scope part, lowered = .ok (block, scope) ∧ part <+: block.text ∧ w'.emitted = w.emitted ++ part
  broken : ¬w.Intact → ¬w'.Intact ∧ w'.emitted = w.emitted
  limit : w'.sink.limit = w.sink.limit
  unlimited : w.sink.limit = none → w.Intact → w'.Intact

theorem Stepped.failed {w w' : Writer} (e : Error) (lowered : Except Refusal (Block × Scope))
    (hscope : w'.scope = w.scope) (hstream : w'.stream = w.stream) : Stepped w w' (some e) lowered := by
  have hemitted : w'.emitted = w.emitted := by rw [emitted, emitted, hstream]
  have hintact : w'.Intact ↔ w.Intact := by rw [Intact, Intact, hstream]
  exact
    { done := by simp
      scope := fun _ => hscope
      part := fun _ => .inl hemitted
      broken := fun h => ⟨by rwa [hintact], hemitted⟩
      limit := by rw [sink, sink, hstream]
      unlimited := fun _ h => hintact.mpr h }

theorem Stepped.written {w w' : Writer} {block : Block} {scope : Scope} {answer : Option Error}
    (hstream : w'.stream = (w.stream.write block.text).1) (hanswer : answer = none ↔ w'.stream.failure = none)
    (hdone : answer = none → w'.scope = scope) (hfailed : answer ≠ none → w'.scope = w.scope) :
    Stepped w w' answer (.ok (block, scope)) := by
  by_cases hintact : w.Intact
  · obtain ⟨⟨n, hpart⟩, hall, hlimit, hunlimited⟩ := Stream.Guarded.write_of_intact hintact block.text
    rw [← hstream] at hpart hall hlimit hunlimited
    exact
      { done := fun h => ⟨block, by rw [hdone h], (hall (hanswer.mp h)).2⟩
        scope := hfailed
        part := fun h => .inr ⟨fun hw' => h (hanswer.mpr hw'.1), block, scope, _, rfl, List.take_prefix n _, hpart⟩
        broken := fun h => absurd hintact h
        limit := hlimit
        unlimited := fun h _ => (hall (hunlimited h)).1 }
  · obtain ⟨hfailure, houtlet⟩ := Stream.Guarded.write_of_not_intact hintact block.text
    rw [← hstream] at hfailure houtlet
    have hemitted : w'.emitted = w.emitted := by rw [emitted, emitted, houtlet]
    exact
      { done := fun h => absurd (hanswer.mp h) hfailure
        scope := hfailed
        part := fun _ => .inl hemitted
        broken := fun _ => ⟨fun hw' => hfailure hw'.1, hemitted⟩
        limit := by rw [sink, sink, houtlet]
        unlimited := fun _ h => absurd h hintact }

theorem stepped_perform (w : Writer) (c : Command) :
    Stepped w (w.perform c).1 (w.perform c).2 (w.scope.lower c) := by
  unfold perform
  cases hlower : w.scope.lower c with
  | error refusal => exact .failed _ _ rfl rfl
  | ok result =>
    obtain ⟨block, scope⟩ := result
    unfold emit
    by_cases hclosed : w.closed
    · simp only [hclosed, if_true]
      exact .failed _ _ rfl rfl
    · simp only [hclosed, Bool.false_eq_true, if_false]
      cases hfailure : (w.stream.write block.text).1.failure with
      | some e => exact .written rfl (by simp [hfailure]) (by simp) (fun _ => rfl)
      | none => exact .written rfl (by simp [hfailure]) (fun _ => rfl) (by simp)

theorem not_intact_of_perform {w : Writer} {c : Command} {result : Block × Scope} (hopen : w.closed = false)
    (hlower : w.scope.lower c = .ok result) (hfailed : (w.perform c).2 ≠ none) : ¬(w.perform c).1.Intact := by
  obtain ⟨block, scope⟩ := result
  unfold perform emit at hfailed ⊢
  simp only [hlower, hopen, Bool.false_eq_true, if_false] at hfailed ⊢
  cases hfailure : (w.stream.write block.text).1.failure with
  | none => simp [hfailure] at hfailed
  | some e =>
    intro hintact
    exact absurd (hfailure.symm.trans hintact.1) (by simp)

theorem Stepped.of_failed {w w' : Writer} {e : Error} {block : Block} {scope : Scope}
    (h : Stepped w w' (some e) (.ok (block, scope))) (rest : Block) (scope' : Scope) :
    Stepped w w' (some e) (.ok (block ++ rest, scope')) := by
  refine { h with done := by simp, part := fun hfailed => (h.part hfailed).imp_right ?_ }
  rintro ⟨hbroken, _, _, part, hblock, hpart, hemitted⟩
  obtain ⟨rfl, -⟩ := Prod.mk.inj (Except.ok.inj hblock)
  refine ⟨hbroken, _, _, part, rfl, ?_, hemitted⟩
  rw [Block.text_append]
  exact hpart.trans (List.prefix_append _ _)

/-- Two blocks one after the other, of which the first leaves the scope as it is and the second fails only with the stream. -/
theorem Stepped.append {w w' w'' : Writer} {answer : Option Error} {block rest : Block} {scope : Scope}
    (h : Stepped w w' none (.ok (block, w.scope))) (hrest : Stepped w' w'' answer (.ok (rest, scope)))
    (hfailed : answer ≠ none → ¬w''.Intact) : Stepped w w'' answer (.ok (block ++ rest, scope)) := by
  obtain ⟨_, hblock, htext⟩ := h.done rfl
  obtain ⟨rfl, hscope⟩ := Prod.mk.inj (Except.ok.inj hblock)
  refine
    { done := fun hanswer => ?_
      scope := fun hanswer => (hrest.scope hanswer).trans hscope.symm
      part := fun hanswer => .inr ⟨hfailed hanswer, ?_⟩
      broken := fun hbroken => ?_
      limit := hrest.limit.trans h.limit
      unlimited := fun hlimit hintact => hrest.unlimited (h.limit.trans hlimit) (h.unlimited hlimit hintact) }
  · obtain ⟨_, hlowered, hemitted⟩ := hrest.done hanswer
    obtain ⟨rfl, rfl⟩ := Prod.mk.inj (Except.ok.inj hlowered)
    exact ⟨_, rfl, by rw [hemitted, htext, Block.text_append, List.append_assoc]⟩
  · rcases hrest.part hanswer with hsame | ⟨-, _, _, part, hlowered, hpart, hemitted⟩
    · refine ⟨_, _, block.text, rfl, ?_, hsame.trans htext⟩
      rw [Block.text_append]
      exact List.prefix_append _ _
    · obtain ⟨rfl, -⟩ := Prod.mk.inj (Except.ok.inj hlowered)
      refine ⟨_, _, block.text ++ part, rfl, ?_, by rw [hemitted, htext, List.append_assoc]⟩
      rw [Block.text_append]
      exact (List.prefix_append_right_inj _).mpr hpart
  · obtain ⟨hbroken', hsame⟩ := h.broken hbroken
    obtain ⟨hbroken'', hsame'⟩ := hrest.broken hbroken'
    exact ⟨hbroken'', hsame'.trans hsame⟩

theorem stepped_bootstrap (w : Writer) :
    Stepped w w.bootstrap.1 w.bootstrap.2 (Operation.bootstrap.lower w.scope) := by
  obtain ⟨stream, scope, closed⟩ := w
  unfold bootstrap emit
  cases closed with
  | true => exact .failed _ _ rfl rfl
  | false =>
    simp only [Bool.false_eq_true, if_false, Operation.lower_bootstrap]
    have hreset : Stepped ⟨stream, scope, false⟩ ⟨(stream.write Block.resetStack.text).1, scope, false⟩
        ((stream.write Block.resetStack.text).1.failure.map .stream) (.ok (Block.resetStack, scope)) :=
      .written rfl (by simp) (fun _ => rfl) (fun _ => rfl)
    generalize (stream.write Block.resetStack.text).1 = stream' at *
    cases hfailure : stream'.failure with
    | some e =>
      rw [hfailure] at hreset
      exact hreset.of_failed _ _
    | none =>
      -- the stack is set up, and now the entry point is called
      rw [hfailure] at hreset
      have hcall := stepped_perform ⟨stream', scope, false⟩ (.call entryPoint 0)
      rw [scope.lower_entryPoint] at hcall
      exact hreset.append hcall (not_intact_of_perform rfl scope.lower_entryPoint)

theorem Stepped.quiet {w w' : Writer} {answer : Option Error} {scope : Scope} (hdone : answer = none → w'.scope = scope)
    (hfailed : answer ≠ none → w'.scope = w.scope) (hemitted : w'.emitted = w.emitted)
    (hbroken : ¬w.Intact → ¬w'.Intact) (hlimit : w'.sink.limit = w.sink.limit)
    (hunlimited : w.sink.limit = none → w.Intact → w'.Intact) : Stepped w w' answer (.ok ([], scope)) where
  done h := ⟨[], by rw [hdone h], by simp [hemitted, Block.text]⟩
  scope := hfailed
  part _ := .inl hemitted
  broken h := ⟨hbroken h, hemitted⟩
  limit := hlimit
  unlimited := hunlimited

theorem flushStream_spec (s : Stream.Guarded Stream.Buffered) :
    (flushStream s).1.outlet.taken = s.outlet.taken ∧ (flushStream s).1.outlet.sink.limit = s.outlet.sink.limit ∧
      (¬s.Intact → ¬(flushStream s).1.Intact) ∧ (s.outlet.sink.limit = none → s.Intact → (flushStream s).1.Intact) := by
  obtain ⟨htaken, hfault, hlimit, -, hunlimited⟩ := s.outlet.flush_spec
  unfold flushStream
  cases hfailure : s.failure with
  | some e => exact ⟨rfl, rfl, id, fun _ => id⟩
  | none =>
    refine ⟨htaken, hlimit, fun hbroken hintact => ?_, fun hl hintact => ⟨rfl, ?_⟩⟩
    · cases hold : s.outlet.fault with
      | none => exact hbroken ⟨hfailure, hold⟩
      | some f =>
        have hflushed : s.outlet.flush.1.fault = none := hintact.2
        simp [Stream.Buffered.flush_of_fault hold, hold] at hflushed
    · exact hfault.trans ((hunlimited hl).trans hintact.2)

theorem stepped_flush (w : Writer) : Stepped w w.flush.1 w.flush.2 (.ok ([], w.scope)) := by
  obtain ⟨htaken, hlimit, hbroken, hunlimited⟩ := flushStream_spec w.stream
  unfold flush
  cases w.closed with
  | true => exact .failed _ _ rfl rfl
  | false => exact .quiet (fun _ => rfl) (fun _ => rfl) htaken hbroken hlimit hunlimited

theorem stepped_close (w : Writer) : Stepped w w.close.1 w.close.2 (.ok ([], w.scope)) := by
  obtain ⟨htaken, hlimit, hbroken, hunlimited⟩ := flushStream_spec w.stream
  obtain ⟨hcontents, hclosed⟩ := (flushStream w.stream).1.outlet.sink.close_spec
  unfold close
  cases w.closed with
  | true => exact .failed _ _ rfl rfl
  | false =>
    refine .quiet (fun _ => rfl) (fun _ => rfl) ?_ hbroken (hclosed.trans hlimit) hunlimited
    refine Eq.trans ?_ htaken
    simp only [Bool.false_eq_true, if_false, closeStream, emitted, Stream.Buffered.taken, hcontents]

end Writer

theorem Operation.stepped (w : Writer) (op : Operation) :
    Writer.Stepped w (op.apply w).1 (op.apply w).2 (op.lower w.scope) := by
  cases op with
  | file name => exact .quiet (fun _ => rfl) (by simp [apply]) rfl id rfl fun _ => id
  | bootstrap => exact w.stepped_bootstrap
  | command c => exact w.stepped_perform c
  | access kind segment index =>
    cases kind with
    | push => exact w.stepped_perform (.push segment index)
    | pop => exact w.stepped_perform (.pop segment index)
    | _ => exact .failed _ _ rfl rfl
  | located c =>
    have hperform := w.stepped_perform c.item
    show Writer.Stepped w (w.write c).1 (w.write c).2 (w.scope.lower c.item)
    unfold Writer.write
    generalize w.perform c.item = result at *
    obtain ⟨w', answer⟩ := result
    cases answer with
    | none => exact hperform
    | some e => exact
        { hperform with
          done := by simp
          scope := fun _ => hperform.scope (by simp)
          part := fun _ => hperform.part (by simp) }
  | flush => exact w.stepped_flush
  | close => exact w.stepped_close

/-! ## Runs -/

theorem run_of_not_intact {w : Writer} (h : ¬w.Intact) (ops : List Operation) :
    ¬(run w ops).Intact ∧ (run w ops).emitted = w.emitted := by
  induction ops generalizing w with
  | nil => exact ⟨h, rfl⟩
  | cons op rest ih =>
    obtain ⟨hbroken, hsame⟩ := (op.stepped w).broken h
    obtain ⟨hbroken', hsame'⟩ := ih hbroken
    exact ⟨hbroken', hsame'.trans hsame⟩

/-- The operations of a run that succeed, up to one that fails halfway: it writes a part of its block, and breaks the stream. -/
def attempted (w : Writer) : List Operation → List Operation
  | [] => []
  | op :: rest =>
    if (op.apply w).2 = none then op :: attempted (op.apply w).1 rest
    else if (op.apply w).1.emitted = w.emitted then attempted (op.apply w).1 rest
    else [op]

theorem attempted_cases (w : Writer) (op : Operation) (rest : List Operation) :
    (∃ block, op.lower w.scope = .ok (block, (op.apply w).1.scope) ∧ (op.apply w).2 = none ∧
        (op.apply w).1.emitted = w.emitted ++ block.text ∧ attempted w (op :: rest) = op :: attempted (op.apply w).1 rest) ∨
      ((op.apply w).2 ≠ none ∧ (op.apply w).1.scope = w.scope ∧ (op.apply w).1.emitted = w.emitted ∧
        attempted w (op :: rest) = attempted (op.apply w).1 rest) ∨
      ((op.apply w).2 ≠ none ∧ ¬(op.apply w).1.Intact ∧ (∃ block scope part, op.lower w.scope = .ok (block, scope) ∧
        part <+: block.text ∧ (op.apply w).1.emitted = w.emitted ++ part) ∧ attempted w (op :: rest) = [op]) := by
  have hstep := op.stepped w
  rw [attempted]
  by_cases hanswer : (op.apply w).2 = none
  · obtain ⟨block, hlower, hemitted⟩ := hstep.done hanswer
    exact .inl ⟨block, hlower, hanswer, hemitted, if_pos hanswer⟩
  · rw [if_neg hanswer]
    by_cases hsame : (op.apply w).1.emitted = w.emitted
    · exact .inr (.inl ⟨hanswer, hstep.scope hanswer, hsame, if_pos hsame⟩)
    · obtain ⟨hbroken, hpart⟩ := (hstep.part hanswer).resolve_left hsame
      exact .inr (.inr ⟨hanswer, hbroken, hpart, if_neg hsame⟩)

/-- What a run has written is a first part of the code of its operations, and all of it unless the stream has failed. -/
theorem emitted_run (w : Writer) (ops : List Operation) :
    (run w ops).emitted <+: w.emitted ++ (code w.scope (attempted w ops)).text ∧
      ((run w ops).Intact → (run w ops).emitted = w.emitted ++ (code w.scope (attempted w ops)).text) := by
  induction ops generalizing w with
  | nil => simp [run, attempted, code, trace, Block.text]
  | cons op rest ih =>
    have hrest := ih (op.apply w).1
    rw [run]
    rcases attempted_cases w op rest with ⟨block, hlower, -, hemitted, hops⟩ | ⟨-, hscope, hemitted, hops⟩ |
      ⟨-, hbroken, ⟨block, scope, part, hlower, hpart, hemitted⟩, hops⟩
    · rw [hops, code_cons, Operation.block_of_lower hlower, Operation.after_of_lower hlower, Block.text_append,
        ← List.append_assoc, ← hemitted]
      exact hrest
    · rw [hops, ← hscope, ← hemitted]
      exact hrest
    · -- nothing follows behind the operation that breaks the stream
      obtain ⟨hstill, hsame⟩ := run_of_not_intact hbroken rest
      rw [hops, code_cons, Operation.block_of_lower hlower, hsame, hemitted, Block.text_append, ← List.append_assoc]
      exact ⟨((List.prefix_append_right_inj _).mpr hpart).trans (List.prefix_append _ _), fun h => absurd h hstill⟩

theorem attempted_of_intact {w : Writer} {ops : List Operation} (h : (run w ops).Intact) :
    attempted w ops = accepted w ops := by
  induction ops generalizing w with
  | nil => rfl
  | cons op rest ih =>
    rw [accepted]
    rcases attempted_cases w op rest with ⟨-, -, hanswer, -, hops⟩ | ⟨hanswer, -, -, hops⟩ | ⟨-, hbroken, -⟩
    · rw [if_pos hanswer, hops, ih h]
    · rw [if_neg hanswer, hops, ih h]
    · exact absurd h (run_of_not_intact hbroken rest).1

theorem emitted_run_of_intact {w : Writer} {ops : List Operation} (h : (run w ops).Intact) :
    (run w ops).emitted = w.emitted ++ (code w.scope (accepted w ops)).text := by
  rw [← attempted_of_intact h]
  exact (emitted_run w ops).2 h

theorem lowerable_accepted (w : Writer) (ops : List Operation) : Lowerable w.scope (accepted w ops) := by
  induction ops generalizing w with
  | nil => simp [Lowerable, accepted, trace]
  | cons op rest ih =>
    have hstep := op.stepped w
    rw [accepted]
    by_cases hanswer : (op.apply w).2 = none
    · obtain ⟨block, hlower, -⟩ := hstep.done hanswer
      rw [if_pos hanswer]
      exact .cons hlower (Operation.after_of_lower hlower ▸ ih _)
    · rw [if_neg hanswer, ← hstep.scope hanswer]
      exact ih _

theorem accepted_subset (w : Writer) (ops : List Operation) : accepted w ops ⊆ ops := by
  induction ops generalizing w with
  | nil => exact List.nil_subset _
  | cons op rest ih =>
    rw [accepted]
    split
    · exact List.cons_subset_cons op (ih _)
    · exact List.Subset.trans (ih _) (List.subset_cons_self op rest)

theorem intact_run {w : Writer} (hlimit : w.sink.limit = none) (hintact : w.Intact) (ops : List Operation) :
    (run w ops).Intact := by
  induction ops generalizing w with
  | nil => exact hintact
  | cons op rest ih =>
    have hstep := op.stepped w
    exact ih (hstep.limit.trans hlimit) (hstep.unlimited hlimit hintact)

/-! ## Sinks without a limit -/

/-- The operations that are not refused, each in the scope that those before it left. -/
def unrefused (s : Scope) : List Operation → List Operation
  | [] => []
  | op :: rest =>
    match op.lower s with
    | .ok (_, s') => op :: unrefused s' rest
    | .error _ => unrefused s rest

namespace Writer

/-- Did the stream fail? -/
def Error.isStream : Error → Bool
  | stream _ => true
  | located _ e => e.isStream
  | refused _ | closed => false

theorem closed_emit (w : Writer) (block : Block) : (w.emit block).1.closed = w.closed := by
  unfold emit
  split <;> rfl

theorem closed_perform (w : Writer) (c : Command) : (w.perform c).1.closed = w.closed := by
  unfold perform
  split
  · rfl
  · rename_i block scope _
    have hclosed := w.closed_emit block
    split
    · rename_i h
      rwa [h] at hclosed
    · rename_i h
      rwa [h] at hclosed

theorem closed_bootstrap (w : Writer) : w.bootstrap.1.closed = w.closed := by
  have hclosed := w.closed_emit Block.resetStack
  unfold bootstrap
  split
  · rename_i h
    rwa [h] at hclosed
  · rename_i h
    rw [h] at hclosed
    exact (closed_perform _ _).trans hclosed

theorem not_intact_of_flushStream {s : Stream.Guarded Stream.Buffered} (h : (flushStream s).2 ≠ none) :
    ¬(flushStream s).1.Intact := by
  obtain ⟨-, hfault, -⟩ := s.outlet.flush_spec
  unfold flushStream at h ⊢
  cases hfailure : s.failure with
  | some e => exact fun hintact => absurd (hfailure.symm.trans hintact.1) (by simp)
  | none =>
    simp only [hfailure, ne_eq, Option.map_eq_none_iff] at h
    exact fun hintact => h (hfault.symm.trans hintact.2)

theorem emptied_of_flushStream {s : Stream.Guarded Stream.Buffered} (h : (flushStream s).2 = none) :
    (flushStream s).1.outlet.fault = none ∧ (flushStream s).1.outlet.buffer = #[] := by
  obtain ⟨-, hfault, -, hempty, -⟩ := s.outlet.flush_spec
  unfold flushStream at h ⊢
  cases hfailure : s.failure with
  | some e => simp [hfailure] at h
  | none =>
    simp only [hfailure, Option.map_eq_none_iff] at h
    exact ⟨hfault.trans h, hempty h⟩

theorem closed_close (w : Writer) : w.close.1.closed = true := by
  unfold close
  split
  · assumption
  · rfl

theorem close_of_closed {w : Writer} (h : w.closed = true) : w.close = (w, some .closed) := by
  rw [close, if_pos h]

theorem stream_close {w : Writer} (hopen : w.closed = false) :
    w.close.1.stream = (closeStream (flushStream w.stream).1).1 := by
  simp [close, hopen]

theorem contents_close_of_open {w : Writer} (hopen : w.closed = false) :
    w.close.1.sink.contents = (flushStream w.stream).1.outlet.sink.contents := by
  rw [sink, stream_close hopen]
  exact (Stream.Sink.close_spec _).1

theorem close_eq_none_iff {w : Writer} (hopen : w.closed = false) :
    w.close.2 = none ↔ (flushStream w.stream).2 = none ∧ (flushStream w.stream).1.outlet.sink.close.2 = none := by
  simp only [close, hopen, Bool.false_eq_true, if_false, closeStream]
  cases (flushStream w.stream).2 <;> simp

theorem not_intact_of_bootstrap {w : Writer} (hopen : w.closed = false) (hfailed : w.bootstrap.2 ≠ none) :
    ¬w.bootstrap.1.Intact := by
  unfold bootstrap emit at hfailed ⊢
  simp only [hopen, Bool.false_eq_true, if_false] at hfailed ⊢
  cases hfailure : (w.stream.write Block.resetStack.text).1.failure with
  | some e => exact fun hintact => absurd (hfailure.symm.trans hintact.1) (by simp)
  | none =>
    simp only [hfailure, Option.map_none] at hfailed ⊢
    exact not_intact_of_perform rfl (Scope.lower_entryPoint _) hfailed

end Writer

namespace Operation

theorem snd_write_eq_none_iff (w : Writer) (c : Located Command) : (w.write c).2 = none ↔ (w.perform c.item).2 = none := by
  unfold Writer.write
  split <;> simp [*]

theorem fst_write (w : Writer) (c : Located Command) : (w.write c).1 = (w.perform c.item).1 := by
  unfold Writer.write
  split <;> simp [*]

theorem closed_apply {op : Operation} (hop : op ≠ .close) (w : Writer) : (op.apply w).1.closed = w.closed := by
  cases op with
  | file name => rfl
  | bootstrap => exact w.closed_bootstrap
  | command c => exact w.closed_perform c
  | access kind segment index =>
    cases kind with
    | push => exact w.closed_perform _
    | pop => exact w.closed_perform _
    | _ => rfl
  | located c => exact (congrArg Writer.closed (fst_write w c)).trans (w.closed_perform c.item)
  | flush =>
    show w.flush.1.closed = w.closed
    unfold Writer.flush
    split <;> rfl
  | close => exact absurd rfl hop

theorem perform_of_refused {w : Writer} {c : Command} {refusal : Refusal} (h : w.scope.lower c = .error refusal) :
    (w.perform c).1 = w ∧ ∃ e, (w.perform c).2 = some e ∧ e.isStream = false := by
  rw [Writer.perform, h]
  exact ⟨rfl, _, rfl, rfl⟩

theorem apply_of_refused {w : Writer} {op : Operation} {refusal : Refusal} (h : op.lower w.scope = .error refusal) :
    (op.apply w).1 = w ∧ ∃ e, (op.apply w).2 = some e ∧ e.isStream = false := by
  cases op with
  | file name => exact absurd h (by simp [lower])
  | bootstrap => exact absurd h (by simp [lower_bootstrap])
  | command c => exact perform_of_refused (c := c) h
  | access kind segment index =>
    cases kind with
    | push => exact perform_of_refused (c := .push segment index) h
    | pop => exact perform_of_refused (c := .pop segment index) h
    | _ => exact ⟨rfl, _, rfl, rfl⟩
  | located c =>
    obtain ⟨hsame, e, hanswer, hrefused⟩ := perform_of_refused (c := c.item) h
    refine ⟨(fst_write w c).trans hsame, if c.pos.isKnown then .located c.pos e else e, ?_, ?_⟩
    · show (w.write c).2 = _
      rw [Writer.write, show w.perform c.item = (w, some e) from Prod.ext hsame hanswer]
    · split
      · exact hrefused
      · exact hrefused
  | flush => exact absurd h (by simp [lower])
  | close => exact absurd h (by simp [lower])

theorem not_intact_of_apply {w : Writer} {op : Operation} {result : Block × Scope} (hopen : w.closed = false)
    (hlower : op.lower w.scope = .ok result) (hop : op ≠ .close) (hfailed : (op.apply w).2 ≠ none) :
    ¬(op.apply w).1.Intact := by
  cases op with
  | file name => exact absurd rfl hfailed
  | bootstrap => exact Writer.not_intact_of_bootstrap hopen hfailed
  | command c => exact Writer.not_intact_of_perform hopen hlower hfailed
  | access kind segment index =>
    cases kind with
    | push => exact Writer.not_intact_of_perform hopen hlower hfailed
    | pop => exact Writer.not_intact_of_perform hopen hlower hfailed
    | _ => exact absurd hlower (by simp [lower])
  | located c =>
    have hperform := Writer.not_intact_of_perform hopen hlower (mt (snd_write_eq_none_iff w c).mpr hfailed)
    rwa [← fst_write w c] at hperform
  | flush =>
    have hstream : w.flush.1.stream = (Writer.flushStream w.stream).1 := by simp [Writer.flush, hopen]
    have hanswer : w.flush.2 = (Writer.flushStream w.stream).2.map .stream := by simp [Writer.flush, hopen]
    have hflush := Writer.not_intact_of_flushStream (mt (fun h => hanswer.trans (by rw [h]; rfl)) hfailed)
    rwa [← hstream] at hflush
  | close => exact absurd rfl hop

theorem apply_of_unlimited {w : Writer} {op : Operation} {result : Block × Scope} (hopen : w.closed = false)
    (hlimit : w.sink.limit = none) (hintact : w.Intact) (hlower : op.lower w.scope = .ok result) (hop : op ≠ .close) :
    (op.apply w).2 = none := by
  by_cases hanswer : (op.apply w).2 = none
  · exact hanswer
  · exact absurd ((op.stepped w).unlimited hlimit hintact) (not_intact_of_apply hopen hlower hop hanswer)

end Operation

theorem accepted_eq_unrefused {w : Writer} {ops : List Operation} (hopen : w.closed = false)
    (hlimit : w.sink.limit = none) (hintact : w.Intact) (hops : .close ∉ ops) :
    accepted w ops = unrefused w.scope ops := by
  induction ops generalizing w with
  | nil => rfl
  | cons op rest ih =>
    simp only [List.mem_cons, not_or] at hops
    have hstep := op.stepped w
    have hrest := ih ((op.closed_apply (Ne.symm hops.1) w).trans hopen) (hstep.limit.trans hlimit)
      (hstep.unlimited hlimit hintact) hops.2
    rw [accepted, unrefused, hrest]
    cases hlower : op.lower w.scope with
    | ok result =>
      have hanswer := op.apply_of_unlimited hopen hlimit hintact hlower (Ne.symm hops.1)
      obtain ⟨block, hblock, -⟩ := hstep.done hanswer
      rw [if_pos hanswer]
      obtain rfl := Except.ok.inj (hlower.symm.trans hblock)
      rfl
    | error refusal =>
      have hanswer : (op.apply w).2 ≠ none := by
        intro h
        obtain ⟨block, hblock, -⟩ := hstep.done h
        rw [hlower] at hblock
        exact absurd hblock (by simp)
      rw [if_neg hanswer, hstep.scope hanswer]

/-! ## New writers -/

namespace Writer

theorem emitted_new (sink : Stream.Sink) : (new sink).emitted = sink.contents := by
  simp [emitted, new, Stream.Buffered.taken]

theorem intact_new (sink : Stream.Sink) : (new sink).Intact := ⟨rfl, rfl⟩

end Writer

/-- A new writer on a sink without a limit has written the code of the operations that succeeded. -/
theorem emitted_of_unlimited {sink : Stream.Sink} (hlimit : sink.limit = none) (ops : List Operation) :
    (run (Writer.new sink) ops).emitted = sink.contents ++ (code {} (accepted (Writer.new sink) ops)).text := by
  have hintact : (run (Writer.new sink) ops).Intact := intact_run (w := Writer.new sink) hlimit (Writer.intact_new sink) ops
  rw [emitted_run_of_intact hintact, Writer.emitted_new]
  rfl

end HackPlatform.Code
