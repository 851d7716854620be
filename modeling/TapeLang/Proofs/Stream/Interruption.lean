import TapeLang.Program.Loader
import TapeLang.Proofs.Stream.Erasure

namespace TapeLang

namespace SourceEvent

/-- The second script is the first with that many interruptions put in, also within a text. -/
inductive Interrupted : Nat → List SourceEvent → List SourceEvent → Prop
  | nil : Interrupted 0 [] []
  | keep {n : Nat} {es es' : List SourceEvent} (e : SourceEvent) (h : Interrupted n es es') :
      Interrupted n (e :: es) (e :: es')
  | insert {n : Nat} {es es' : List SourceEvent} {f : Fault} (hf : f.isInterruption = true)
      (h : Interrupted n es es') : Interrupted (n + 1) es (.fail f :: es')
  | split {n : Nat} {es es' : List SourceEvent} (bytes : List UInt8) {more : List UInt8}
      (h : Interrupted n (.data more :: es) es') :
      Interrupted n (.data (bytes ++ more) :: es) (.data bytes :: es')

namespace Interrupted

variable {n : Nat} {es es' : List SourceEvent}

theorem refl (es : List SourceEvent) : Interrupted 0 es es := by
  induction es with
  | nil => exact .nil
  | cons e rest ih => exact .keep e ih

theorem append_left (h : Interrupted n es es') (before : List SourceEvent) :
    Interrupted n (before ++ es) (before ++ es') := by
  induction before with
  | nil => exact h
  | cons e rest ih => exact .keep e ih

theorem between {f : Fault} (hf : f.isInterruption = true) (before after : List SourceEvent) :
    Interrupted 1 (before ++ after) (before ++ .fail f :: after) :=
  ((refl after).insert hf).append_left before

theorem within {f : Fault} (hf : f.isInterruption = true) (before after : List SourceEvent)
    (bytes more : List UInt8) :
    Interrupted 1 (before ++ .data (bytes ++ more) :: after)
      (before ++ .data bytes :: .fail f :: .data more :: after) :=
  (((refl (.data more :: after)).insert hf).split bytes).append_left before

theorem supply_eq (h : Interrupted n es es') :
    es'.flatMap SourceEvent.supply = es.flatMap SourceEvent.supply := by
  induction h with
  | nil => rfl
  | keep e _ ih => rw [List.flatMap_cons, List.flatMap_cons, ih]
  | insert _ _ ih => exact ih
  | split bytes _ ih =>
      rw [List.flatMap_cons, ih, List.flatMap_cons, List.flatMap_cons, ← List.append_assoc]
      simp only [SourceEvent.supply, List.map_append]

end Interrupted

end SourceEvent

def Reply.outcome : Reply → Except TransferError UInt8
  | .byte b => .ok b
  | .count 1 => .ok 0
  | .count n => .error ⟨.read, .count n⟩
  | .failure f => .error ⟨.read, .fault f⟩

namespace Source

open SourceEvent (Interrupted)

/-- The second source is ahead of the first by interruptions only: some of those put in have cost
it a call each, the others are still to come. -/
def Delayed (inserted : Nat) (s t : Source) : Prop :=
  ∃ consumed ahead, consumed + ahead = inserted ∧ t.calls = s.calls + consumed ∧
    Interrupted ahead s.events t.events

variable {n : Nat} {s t : Source} {es es' : List SourceEvent}

theorem delayed_ofEvents (h : Interrupted n es es') : (ofEvents es).Delayed n (ofEvents es') :=
  ⟨0, n, Nat.zero_add n, rfl, h⟩

theorem Delayed.left_eq (h : s.Delayed n t) : t.left = s.left := by
  obtain ⟨_, _, -, -, h⟩ := h
  rw [left_eq_countP, left_eq_countP, supply, supply, h.supply_eq]

theorem delayed_replyAfter (h : Interrupted n es es') (calls consumed : Nat) :
    (replyAfter (calls + consumed) es').1 = (replyAfter calls es).1 ∧
      (replyAfter calls es).2.Delayed (consumed + n) (replyAfter (calls + consumed) es').2 := by
  induction h generalizing calls consumed with
  | nil => exact ⟨rfl, consumed, 0, rfl, Nat.add_right_comm .., .nil⟩
  | @keep n es es' e h ih =>
      have hcalls : calls + consumed + 1 = calls + 1 + consumed := Nat.add_right_comm ..
      match e with
      | .data [] => exact ih calls consumed
      | .data (b :: bytes) => exact ⟨rfl, consumed, n, rfl, hcalls, .keep _ h⟩
      | .claim _ => exact ⟨rfl, consumed, n, rfl, hcalls, h⟩
      | .fail f =>
          rw [replyAfter, replyAfter, hcalls]
          split
          · exact ih (calls + 1) consumed
          · exact ⟨rfl, consumed, n, rfl, rfl, h⟩
  | @insert n es es' f hf h ih =>
      rw [replyAfter, if_pos hf, Nat.add_assoc calls, Nat.add_comm n, ← Nat.add_assoc consumed]
      exact ih calls (consumed + 1)
  | @split n es es' bytes more h ih =>
      cases bytes with
      | nil => exact ih calls consumed
      | cons b bytes => exact ⟨rfl, consumed, n, rfl, Nat.add_right_comm .., .split bytes h⟩

theorem readByte_of_reply {r : Reply} {s' : Source} (h : s.reply = (r, s')) :
    s.readByte = (r.outcome, s') := by
  rw [readByte, h]
  cases r with
  | byte => rfl
  | count actual => rcases actual with _ | _ | _ <;> rfl
  | failure => rfl

theorem Delayed.readByte {r : Except TransferError UInt8} {s' : Source} (h : s.Delayed n t)
    (hr : s.readByte = (r, s')) : ∃ t', t.readByte = (r, t') ∧ s'.Delayed n t' := by
  obtain ⟨consumed, ahead, rfl, hcalls, h⟩ := h
  obtain ⟨hreply, hrest⟩ := delayed_replyAfter h s.calls consumed
  obtain ⟨rfl, rfl⟩ := Prod.mk.inj ((readByte_of_reply rfl).symm.trans hr)
  have hread : t.readByte = _ := readByte_of_reply rfl
  rw [hcalls, hreply] at hread
  exact ⟨_, hread, hrest⟩

theorem drainAfter_data_append (code : Array UInt8) (calls : Nat) (bytes more : List UInt8)
    (rest : List SourceEvent) :
    drainAfter code calls (.data (bytes ++ more) :: rest) =
      drainAfter (code.appendList bytes) (calls + bytes.length) (.data more :: rest) := by
  have hcode : code.appendList (bytes ++ more) = (code.appendList bytes).appendList more :=
    List.foldl_append
  rw [drainAfter, drainAfter, hcode, List.length_append, Nat.add_assoc]

theorem delayed_drainAfter (h : Interrupted n es es') (code : Array UInt8)
    (calls consumed : Nat) :
    (drainAfter code (calls + consumed) es').1 = (drainAfter code calls es).1 ∧
      (drainAfter code calls es).2.Delayed (consumed + n)
        (drainAfter code (calls + consumed) es').2 := by
  induction h generalizing code calls consumed with
  | nil => exact ⟨rfl, consumed, 0, rfl, Nat.add_right_comm .., .nil⟩
  | @keep n es es' e h ih =>
      have hcalls (k : Nat) : calls + consumed + k = calls + k + consumed :=
        Nat.add_right_comm ..
      match e with
      | .data bytes =>
          rw [drainAfter, drainAfter, hcalls]
          exact ih _ _ consumed
      | .claim 0 => exact ⟨rfl, consumed, n, rfl, hcalls 1, h⟩
      | .claim (_ + 1) =>
          rw [drainAfter, drainAfter, hcalls]
          exact ih _ _ consumed
      | .fail f =>
          rw [drainAfter, drainAfter, hcalls]
          split
          · exact ih code (calls + 1) consumed
          · exact ⟨rfl, consumed, n, rfl, rfl, h⟩
  | @insert n es es' f hf h ih =>
      rw [drainAfter, if_pos hf, Nat.add_assoc calls, Nat.add_comm n, ← Nat.add_assoc consumed]
      exact ih code calls (consumed + 1)
  | @split n es es' bytes more h ih =>
      rw [drainAfter, Nat.add_right_comm, drainAfter_data_append]
      exact ih _ _ consumed

theorem Delayed.drain (h : s.Delayed n t) :
    t.drain.1 = s.drain.1 ∧ s.drain.2.Delayed n t.drain.2 := by
  obtain ⟨consumed, ahead, rfl, hcalls, h⟩ := h
  rw [Source.drain, Source.drain, hcalls]
  exact delayed_drainAfter h #[] s.calls consumed

end Source

namespace SinkEvent

inductive Interrupted : Nat → List SinkEvent → List SinkEvent → Prop
  | nil : Interrupted 0 [] []
  | keep {n : Nat} {es es' : List SinkEvent} (e : SinkEvent) (h : Interrupted n es es') :
      Interrupted n (e :: es) (e :: es')
  | insert {n : Nat} {es es' : List SinkEvent} {f : Fault} (hf : f.isInterruption = true)
      (h : Interrupted n es es') : Interrupted (n + 1) es (.fail f :: es')

namespace Interrupted

variable {n : Nat} {es es' : List SinkEvent}

theorem refl (es : List SinkEvent) : Interrupted 0 es es := by
  induction es with
  | nil => exact .nil
  | cons e rest ih => exact .keep e ih

theorem append_left (h : Interrupted n es es') (before : List SinkEvent) :
    Interrupted n (before ++ es) (before ++ es') := by
  induction before with
  | nil => exact h
  | cons e rest ih => exact .keep e ih

theorem between {f : Fault} (hf : f.isInterruption = true) (before after : List SinkEvent) :
    Interrupted 1 (before ++ after) (before ++ .fail f :: after) :=
  ((refl after).insert hf).append_left before

end Interrupted

end SinkEvent

def Receipt.outcome : Receipt → Except TransferError Unit
  | .accepted => .ok ()
  | .count 1 => .ok ()
  | .count n => .error ⟨.write, .count n⟩
  | .failure f => .error ⟨.write, .fault f⟩

def Receipt.stored (value : UInt8) (bytes : Array UInt8) : Receipt → Array UInt8
  | .accepted => bytes.push value
  | _ => bytes

namespace Sink

open SinkEvent (Interrupted)

def Delayed (inserted : Nat) (s t : Sink) : Prop :=
  t.stored = s.stored ∧ ∃ consumed ahead, consumed + ahead = inserted ∧
    t.calls = s.calls + consumed ∧ Interrupted ahead s.events t.events

variable {n : Nat} {s t : Sink} {es es' : List SinkEvent}

theorem delayed_ofEvents (h : Interrupted n es es') : (ofEvents es).Delayed n (ofEvents es') :=
  ⟨rfl, 0, n, Nat.zero_add n, rfl, h⟩

theorem delayed_receiptAfter (h : Interrupted n es es') (calls consumed : Nat) :
    (receiptAfter (calls + consumed) es').1 = (receiptAfter calls es).1 ∧
      ∃ passed ahead, passed + ahead = consumed + n ∧
        (receiptAfter (calls + consumed) es').2.2 = (receiptAfter calls es).2.2 + passed ∧
        Interrupted ahead (receiptAfter calls es).2.1 (receiptAfter (calls + consumed) es').2.1 := by
  induction h generalizing calls consumed with
  | nil => exact ⟨rfl, consumed, 0, rfl, Nat.add_right_comm .., .nil⟩
  | @keep n es es' e h ih =>
      have hcalls : calls + consumed + 1 = calls + 1 + consumed := Nat.add_right_comm ..
      cases e with
      | accept => exact ⟨rfl, consumed, n, rfl, hcalls, h⟩
      | claim => exact ⟨rfl, consumed, n, rfl, hcalls, h⟩
      | fail f =>
          rw [receiptAfter, receiptAfter, hcalls]
          split
          · exact ih (calls + 1) consumed
          · exact ⟨rfl, consumed, n, rfl, rfl, h⟩
  | @insert n es es' f hf h ih =>
      rw [receiptAfter, if_pos hf, Nat.add_assoc calls, Nat.add_comm n, ← Nat.add_assoc consumed]
      exact ih calls (consumed + 1)

theorem writeByte_of_receipt {value : UInt8} {r : Receipt} {events : List SinkEvent}
    {calls : Nat} (h : receiptAfter s.calls s.events = (r, events, calls)) :
    s.writeByte value = (r.outcome, ⟨events, Receipt.stored value s.stored r, calls⟩) := by
  rw [writeByte, h]
  cases r with
  | accepted => rfl
  | count actual => rcases actual with _ | _ | _ <;> rfl
  | failure => rfl

theorem Delayed.writeByte {r : Except TransferError Unit} {s' : Sink} {value : UInt8}
    (h : s.Delayed n t) (hw : s.writeByte value = (r, s')) :
    ∃ t', t.writeByte value = (r, t') ∧ s'.Delayed n t' := by
  obtain ⟨hstored, consumed, ahead, rfl, hcalls, h⟩ := h
  obtain ⟨hreceipt, hrest⟩ := delayed_receiptAfter h s.calls consumed
  obtain ⟨rfl, rfl⟩ := Prod.mk.inj ((writeByte_of_receipt rfl).symm.trans hw)
  have hwrite : t.writeByte value = _ := writeByte_of_receipt rfl
  rw [hcalls, hreceipt, hstored] at hwrite
  exact ⟨_, hwrite, rfl, hrest⟩

end Sink

end TapeLang
