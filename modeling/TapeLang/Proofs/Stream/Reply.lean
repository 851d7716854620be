import Mathlib.Data.List.Induction
import TapeLang.Proofs.Stream.Interruption

namespace TapeLang

section

variable {α : Type}

/-- A call that asks again after an interruption takes the answers `skipped`, keeps `a` and leaves
`rest`; past the last answer it keeps `past`. -/
inductive Retried (interrupts : α → Bool) (past : α) : List α → List α → α → List α → Prop
  | kept {skipped rest : List α} {a : α} (hs : ∀ x ∈ skipped, interrupts x = true)
      (ha : interrupts a = false) : Retried interrupts past (skipped ++ a :: rest) skipped a rest
  | ended {skipped : List α} (hs : ∀ x ∈ skipped, interrupts x = true) :
      Retried interrupts past skipped skipped past []

namespace Retried

variable {interrupts : α → Bool} {past a x : α} {answers skipped rest : List α}

theorem first (ha : interrupts a = false) (rest : List α) :
    Retried interrupts past (a :: rest) [] a rest :=
  kept (List.forall_mem_nil _) ha

theorem again (hx : interrupts x = true) (h : Retried interrupts past answers skipped a rest) :
    Retried interrupts past (x :: answers) (x :: skipped) a rest := by
  cases h with
  | kept hs ha => exact kept (List.forall_mem_cons.2 ⟨hx, hs⟩) ha
  | ended hs => exact ended (List.forall_mem_cons.2 ⟨hx, hs⟩)

theorem filter_eq (h : Retried interrupts past answers skipped a rest) :
    (answers.filter (!interrupts ·)).head?.getD past = a ∧
      rest.filter (!interrupts ·) = (answers.filter (!interrupts ·)).tail := by
  have none_kept (hs : ∀ x ∈ skipped, interrupts x = true) :
      skipped.filter (!interrupts ·) = [] :=
    List.filter_eq_nil_iff.2 fun x hx => by simp [hs x hx]
  cases h with
  | kept hs ha => simp [none_kept hs, ha]
  | ended hs => simp [none_kept hs]

end Retried

end

def SourceEvent.replies : SourceEvent → List Reply
  | .data bytes => bytes.map .byte
  | .claim n => [.count n]
  | .fail f => [.failure f]

namespace Reply

def isInterruption : Reply → Bool
  | .failure f => f.isInterruption
  | _ => false

def bytes : Reply → List UInt8
  | .byte b => [b]
  | _ => []

theorem of_outcome_eq_error {r : Reply} {e : TransferError} (h : r.outcome = .error e) :
    e.direction = .read ∧ (r = .count e.actual ∧ e.fault? = none ∨
      e.actual = 0 ∧ ∃ f, r = .failure f ∧ e.fault? = some f) := by
  cases r with
  | byte => cases h
  | count n =>
      rcases n with _ | _ | n
      · cases h
        exact ⟨rfl, .inl ⟨rfl, rfl⟩⟩
      · cases h
      · cases h
        exact ⟨rfl, .inl ⟨rfl, rfl⟩⟩
  | failure f =>
      cases h
      exact ⟨rfl, .inr ⟨rfl, f, rfl, rfl⟩⟩

theorem bytes_of_outcome_eq_error {r : Reply} {e : TransferError} (h : r.outcome = .error e) :
    r.bytes = [] := by
  cases r with
  | byte => cases h
  | count => rfl
  | failure => rfl

end Reply

namespace Source

def replies (s : Source) : List Reply :=
  s.events.flatMap SourceEvent.replies

def unread (s : Source) : List UInt8 :=
  s.events.flatMap SourceEvent.bytes

def afterReads (s : Source) : Nat → Source
  | 0 => s
  | k + 1 => (s.afterReads k).readByte.2

/-- The reply that the read after `k` others keeps. -/
def answer (s : Source) (k : Nat) : Reply :=
  (s.replies.filter (!·.isInterruption))[k]?.getD (.count 0)

/-- The reply that a call keeps, and the source after it. Interrupted calls are made again. -/
inductive Yields : Source → Reply → Source → Prop
  | ended (calls : Nat) : Yields ⟨[], calls⟩ (.count 0) ⟨[], calls + 1⟩
  | drained {rest : List SourceEvent} {calls : Nat} {r : Reply} {s : Source}
      (h : Yields ⟨rest, calls⟩ r s) : Yields ⟨.data [] :: rest, calls⟩ r s
  | byte (b : UInt8) (bytes : List UInt8) (rest : List SourceEvent) (calls : Nat) :
      Yields ⟨.data (b :: bytes) :: rest, calls⟩ (.byte b) ⟨.data bytes :: rest, calls + 1⟩
  | claim (n : Nat) (rest : List SourceEvent) (calls : Nat) :
      Yields ⟨.claim n :: rest, calls⟩ (.count n) ⟨rest, calls + 1⟩
  | fault {f : Fault} (hf : f.kind ≠ .interrupted) (rest : List SourceEvent) (calls : Nat) :
      Yields ⟨.fail f :: rest, calls⟩ (.failure f) ⟨rest, calls + 1⟩
  | interrupted {f : Fault} {rest : List SourceEvent} {calls : Nat} {r : Reply} {s : Source}
      (hf : f.kind = .interrupted) (h : Yields ⟨rest, calls + 1⟩ r s) :
      Yields ⟨.fail f :: rest, calls⟩ r s

structure Takes (s : Source) (skipped : List Reply) (r : Reply) (s' : Source) : Prop where
  replies : Retried Reply.isInterruption (.count 0) s.replies skipped r s'.replies
  calls : s'.calls = s.calls + (skipped.length + 1)
  unread : s.unread = r.bytes ++ s'.unread

theorem Yields.reply_eq {s s' : Source} {r : Reply} (h : s.Yields r s') : s.reply = (r, s') := by
  induction h with
  | ended => rfl
  | drained _ ih => exact ih
  | byte => rfl
  | claim => rfl
  | fault hf => simp [reply, replyAfter, Fault.isInterruption, hf]
  | interrupted hf _ ih =>
      rw [← ih]
      simp [reply, replyAfter, Fault.isInterruption, hf]

theorem Yields.readByte_eq {s s' : Source} {r : Reply} (h : s.Yields r s') :
    s.readByte = (r.outcome, s') :=
  readByte_of_reply h.reply_eq

theorem exists_yields (s : Source) : ∃ r s', s.Yields r s' := by
  obtain ⟨events, calls⟩ := s
  induction events generalizing calls with
  | nil => exact ⟨_, _, .ended calls⟩
  | cons e rest ih =>
      match e with
      | .data [] =>
          obtain ⟨r, s', h⟩ := ih calls
          exact ⟨r, s', .drained h⟩
      | .data (b :: bytes) => exact ⟨_, _, .byte b bytes rest calls⟩
      | .claim n => exact ⟨_, _, .claim n rest calls⟩
      | .fail f =>
          by_cases hf : f.kind = .interrupted
          · obtain ⟨r, s', h⟩ := ih (calls + 1)
            exact ⟨r, s', .interrupted hf h⟩
          · exact ⟨_, _, .fault hf rest calls⟩

theorem readByte_eq_iff {s s' : Source} {r : Except TransferError UInt8} :
    s.readByte = (r, s') ↔ ∃ reply, s.Yields reply s' ∧ reply.outcome = r := by
  constructor
  · intro h
    obtain ⟨reply, s₁, hy⟩ := s.exists_yields
    obtain ⟨hr, rfl⟩ := Prod.mk.inj (hy.readByte_eq.symm.trans h)
    exact ⟨reply, hy, hr⟩
  · rintro ⟨reply, hy, rfl⟩
    exact hy.readByte_eq

theorem Yields.exists_takes {s s' : Source} {r : Reply} (h : s.Yields r s') :
    ∃ skipped, s.Takes skipped r s' := by
  induction h with
  | ended => exact ⟨[], .ended (List.forall_mem_nil _), rfl, rfl⟩
  | drained _ ih =>
      obtain ⟨skipped, hr, hc, hu⟩ := ih
      exact ⟨skipped, hr, hc, hu⟩
  | byte => exact ⟨[], .first rfl _, rfl, rfl⟩
  | claim => exact ⟨[], .first rfl _, rfl, rfl⟩
  | @fault f hf =>
      have hkept : Reply.isInterruption (.failure f) = false := decide_eq_false hf
      exact ⟨[], .first hkept _, rfl, rfl⟩
  | @interrupted f rest calls r s' hf _ ih =>
      obtain ⟨skipped, hr, hc, hu⟩ := ih
      refine ⟨.failure f :: skipped, hr.again (decide_eq_true hf), ?_, hu⟩
      rw [hc, List.length_cons, Nat.add_right_comm, Nat.add_assoc]

theorem exists_takes (s : Source) :
    s.readByte.1 = (s.answer 0).outcome ∧
      ∃ skipped, s.Takes skipped (s.answer 0) s.readByte.2 := by
  obtain ⟨r, s', h⟩ := s.exists_yields
  obtain ⟨skipped, ht⟩ := h.exists_takes
  have hanswer : s.answer 0 = r := by
    rw [answer, ← List.head?_eq_getElem?]
    exact ht.replies.filter_eq.1
  rw [hanswer, h.readByte_eq]
  exact ⟨rfl, skipped, ht⟩

theorem unread_of_readByte {s s' : Source} {e : TransferError} (h : s.readByte = (.error e, s')) :
    s'.unread = s.unread := by
  obtain ⟨hr, skipped, ht⟩ := s.exists_takes
  rw [h] at hr ht
  rw [ht.unread, Reply.bytes_of_outcome_eq_error hr.symm, List.nil_append]

theorem answer_afterReads (s : Source) (k i : Nat) :
    (s.afterReads k).answer i = s.answer (k + i) := by
  induction k generalizing i with
  | zero => rw [afterReads, Nat.zero_add]
  | succ k ih =>
      obtain ⟨-, skipped, h⟩ := (s.afterReads k).exists_takes
      rw [afterReads, answer, h.replies.filter_eq.2, List.getElem?_tail, Nat.add_right_comm k 1 i]
      exact ih (i + 1)

end Source

namespace SinkEvent

def isInterruption : SinkEvent → Bool
  | .fail f => f.isInterruption
  | _ => false

def receipt : SinkEvent → Receipt
  | .accept => .accepted
  | .claim n => .count n
  | .fail f => .failure f

theorem of_outcome_eq_error {v : SinkEvent} {e : TransferError}
    (h : v.receipt.outcome = .error e) :
    e.direction = .write ∧ (v = .claim e.actual ∧ e.fault? = none ∨
      e.actual = 0 ∧ ∃ f, v = .fail f ∧ e.fault? = some f) := by
  cases v with
  | accept => cases h
  | claim n =>
      rcases n with _ | _ | n
      · cases h
        exact ⟨rfl, .inl ⟨rfl, rfl⟩⟩
      · cases h
      · cases h
        exact ⟨rfl, .inl ⟨rfl, rfl⟩⟩
  | fail f =>
      cases h
      exact ⟨rfl, .inr ⟨rfl, f, rfl, rfl⟩⟩

end SinkEvent

namespace Sink

def afterWrites (s : Sink) (values : List UInt8) : Sink :=
  values.foldl (fun s value => (s.writeByte value).2) s

def verdict (s : Sink) (k : Nat) : SinkEvent :=
  (s.events.filter (!·.isInterruption))[k]?.getD .accept

inductive Yields (value : UInt8) : Sink → SinkEvent → Sink → Prop
  | ended (stored : Array UInt8) (calls : Nat) :
      Yields value ⟨[], stored, calls⟩ .accept ⟨[], stored.push value, calls + 1⟩
  | accepted (rest : List SinkEvent) (stored : Array UInt8) (calls : Nat) :
      Yields value ⟨.accept :: rest, stored, calls⟩ .accept ⟨rest, stored.push value, calls + 1⟩
  | claim (n : Nat) (rest : List SinkEvent) (stored : Array UInt8) (calls : Nat) :
      Yields value ⟨.claim n :: rest, stored, calls⟩ (.claim n) ⟨rest, stored, calls + 1⟩
  | fault {f : Fault} (hf : f.kind ≠ .interrupted) (rest : List SinkEvent) (stored : Array UInt8)
      (calls : Nat) :
      Yields value ⟨.fail f :: rest, stored, calls⟩ (.fail f) ⟨rest, stored, calls + 1⟩
  | interrupted {f : Fault} {rest : List SinkEvent} {stored : Array UInt8} {calls : Nat}
      {e : SinkEvent} {s : Sink} (hf : f.kind = .interrupted)
      (h : Yields value ⟨rest, stored, calls + 1⟩ e s) :
      Yields value ⟨.fail f :: rest, stored, calls⟩ e s

structure Takes (s : Sink) (value : UInt8) (skipped : List SinkEvent) (e : SinkEvent)
    (s' : Sink) : Prop where
  events : Retried SinkEvent.isInterruption .accept s.events skipped e s'.events
  calls : s'.calls = s.calls + (skipped.length + 1)
  stored : s'.stored.toList = s.stored.toList ++ if e = .accept then [value] else []

theorem Yields.writeByte_eq {s s' : Sink} {value : UInt8} {e : SinkEvent}
    (h : s.Yields value e s') : s.writeByte value = (e.receipt.outcome, s') := by
  induction h with
  | ended => rfl
  | accepted => rfl
  | claim => exact writeByte_of_receipt rfl
  | fault hf => simp [writeByte, receiptAfter, Fault.isInterruption, hf, SinkEvent.receipt,
      Receipt.outcome]
  | interrupted hf _ ih =>
      rw [← ih]
      simp [writeByte, receiptAfter, Fault.isInterruption, hf]

theorem exists_yields (s : Sink) (value : UInt8) : ∃ e s', s.Yields value e s' := by
  obtain ⟨events, stored, calls⟩ := s
  induction events generalizing calls with
  | nil => exact ⟨_, _, .ended stored calls⟩
  | cons e rest ih =>
      cases e with
      | accept => exact ⟨_, _, .accepted rest stored calls⟩
      | claim n => exact ⟨_, _, .claim n rest stored calls⟩
      | fail f =>
          by_cases hf : f.kind = .interrupted
          · obtain ⟨e, s', h⟩ := ih (calls + 1)
            exact ⟨e, s', .interrupted hf h⟩
          · exact ⟨_, _, .fault hf rest stored calls⟩

theorem writeByte_eq_iff {s s' : Sink} {value : UInt8} {r : Except TransferError Unit} :
    s.writeByte value = (r, s') ↔
      ∃ verdict, s.Yields value verdict s' ∧ verdict.receipt.outcome = r := by
  constructor
  · intro h
    obtain ⟨verdict, s₁, hy⟩ := s.exists_yields value
    obtain ⟨hr, rfl⟩ := Prod.mk.inj (hy.writeByte_eq.symm.trans h)
    exact ⟨verdict, hy, hr⟩
  · rintro ⟨verdict, hy, rfl⟩
    exact hy.writeByte_eq

theorem Yields.exists_takes {s s' : Sink} {value : UInt8} {e : SinkEvent}
    (h : s.Yields value e s') : ∃ skipped, s.Takes value skipped e s' := by
  induction h with
  | ended => exact ⟨[], .ended (List.forall_mem_nil _), rfl, Array.toList_push⟩
  | accepted => exact ⟨[], .first rfl _, rfl, Array.toList_push⟩
  | claim => exact ⟨[], .first rfl _, rfl, (List.append_nil _).symm⟩
  | @fault f hf =>
      have hkept : SinkEvent.isInterruption (.fail f) = false := decide_eq_false hf
      exact ⟨[], .first hkept _, rfl, (List.append_nil _).symm⟩
  | @interrupted f rest stored calls e s' hf _ ih =>
      obtain ⟨skipped, hr, hc, hs⟩ := ih
      refine ⟨.fail f :: skipped, hr.again (decide_eq_true hf), ?_, hs⟩
      rw [hc, List.length_cons, Nat.add_right_comm, Nat.add_assoc]

theorem exists_takes (s : Sink) (value : UInt8) :
    (s.writeByte value).1 = (s.verdict 0).receipt.outcome ∧
      ∃ skipped, s.Takes value skipped (s.verdict 0) (s.writeByte value).2 := by
  obtain ⟨e, s', h⟩ := s.exists_yields value
  obtain ⟨skipped, ht⟩ := h.exists_takes
  have hverdict : s.verdict 0 = e := by
    rw [verdict, ← List.head?_eq_getElem?]
    exact ht.events.filter_eq.1
  rw [hverdict, h.writeByte_eq]
  exact ⟨rfl, skipped, ht⟩

theorem afterWrites_concat (s : Sink) (values : List UInt8) (value : UInt8) :
    s.afterWrites (values ++ [value]) = ((s.afterWrites values).writeByte value).2 := by
  rw [afterWrites, List.foldl_append, List.foldl_cons, List.foldl_nil, afterWrites]

theorem verdict_afterWrites (s : Sink) (values : List UInt8) (i : Nat) :
    (s.afterWrites values).verdict i = s.verdict (values.length + i) := by
  induction values using List.reverseRecOn generalizing i with
  | nil => rw [List.length_nil, Nat.zero_add, afterWrites, List.foldl_nil]
  | append_singleton values value ih =>
      obtain ⟨-, skipped, h⟩ := (s.afterWrites values).exists_takes value
      rw [afterWrites_concat, verdict, h.events.filter_eq.2, List.getElem?_tail,
        List.length_append, List.length_singleton, Nat.add_right_comm]
      exact ih (i + 1)

theorem stored_afterWrites (s : Sink) (values : List UInt8) :
    (s.afterWrites values).stored.toList = s.stored.toList ++
      (values.zipIdx.filter fun v => s.verdict v.2 = .accept).map Prod.fst := by
  induction values using List.reverseRecOn with
  | nil => simp [afterWrites]
  | append_singleton values value ih =>
      obtain ⟨-, skipped, h⟩ := (s.afterWrites values).exists_takes value
      rw [afterWrites_concat, h.stored, ih, verdict_afterWrites, List.zipIdx_append,
        List.filter_append, List.map_append, List.append_assoc]
      by_cases ha : s.verdict values.length = .accept <;> simp [ha]

end Sink

theorem transfers_follow_replies (s : Source) (t : Sink) :
    (∀ k, (s.afterReads k).readByte.1 = (s.answer k).outcome ∧
      (∃ skipped, (s.afterReads k).Takes skipped (s.answer k) (s.afterReads (k + 1))) ∧
      ∀ e, (s.afterReads k).readByte.1 = .error e →
        e.direction = .read ∧ e.expected = 1 ∧
          (s.answer k = .count e.actual ∧ e.fault? = none ∨
            e.actual = 0 ∧ ∃ f, s.answer k = .failure f ∧ e.fault? = some f)) ∧
    (∀ k, (s.replies.filter (!·.isInterruption)).length ≤ k →
      (s.afterReads k).readByte.1 = .error ⟨.read, .count 0⟩) ∧
    (∀ values value,
      ((t.afterWrites values).writeByte value).1 = (t.verdict values.length).receipt.outcome ∧
      (∃ skipped, (t.afterWrites values).Takes value skipped (t.verdict values.length)
        (t.afterWrites (values ++ [value]))) ∧
      ∀ e, ((t.afterWrites values).writeByte value).1 = .error e →
        e.direction = .write ∧ e.expected = 1 ∧
          (t.verdict values.length = .claim e.actual ∧ e.fault? = none ∨
            e.actual = 0 ∧ ∃ f, t.verdict values.length = .fail f ∧ e.fault? = some f)) ∧
    ∀ values, (t.afterWrites values).stored.toList = t.stored.toList ++
      (values.zipIdx.filter fun v => t.verdict v.2 = .accept).map Prod.fst := by
  have hreads (k : Nat) : (s.afterReads k).answer 0 = s.answer k := s.answer_afterReads k 0
  have hwrites (values : List UInt8) :
      (t.afterWrites values).verdict 0 = t.verdict values.length := t.verdict_afterWrites values 0
  refine ⟨?_, ?_, ?_, t.stored_afterWrites⟩
  · intro k
    obtain ⟨hr, htakes⟩ := (s.afterReads k).exists_takes
    rw [hreads] at hr htakes
    refine ⟨hr, htakes, fun e he => ?_⟩
    obtain ⟨hd, hkind⟩ := Reply.of_outcome_eq_error (hr.symm.trans he)
    exact ⟨hd, rfl, hkind⟩
  · intro k hk
    rw [(s.afterReads k).exists_takes.1, hreads, Source.answer, List.getElem?_eq_none hk]
    rfl
  · intro values value
    obtain ⟨hr, htakes⟩ := (t.afterWrites values).exists_takes value
    rw [hwrites] at hr htakes
    rw [Sink.afterWrites_concat]
    refine ⟨hr, htakes, fun e he => ?_⟩
    obtain ⟨hd, hkind⟩ := SinkEvent.of_outcome_eq_error (hr.symm.trans he)
    exact ⟨hd, rfl, hkind⟩

example :
    let s := Source.ofEvents [.fail ⟨.interrupted, "signal"⟩, .data [], .data [7], .claim 2]
    (s.answer 0, s.answer 1, s.answer 2) = (.byte 7, .count 2, .count 0) :=
  rfl

end TapeLang
