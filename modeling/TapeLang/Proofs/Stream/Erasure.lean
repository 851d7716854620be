import TapeLang.Stream.Sink
import TapeLang.Stream.Source

namespace TapeLang

theorem flatMap_filter_not {α β : Type} {p : α → Bool} {f : α → List β}
    (h : ∀ a, p a = true → f a = []) (as : List α) :
    (as.filter fun a => !p a).flatMap f = as.flatMap f := by
  induction as with
  | nil => rfl
  | cons a rest ih =>
      rw [List.flatMap_cons]
      by_cases ha : p a = true
      · rw [List.filter_cons_of_neg (by rw [ha]; exact Bool.false_ne_true), ih, h a ha,
          List.nil_append]
      · rw [Bool.not_eq_true] at ha
        rw [List.filter_cons_of_pos (by rw [ha]; rfl), List.flatMap_cons, ih]

theorem countP_filter_not {α : Type} {p q : α → Bool} (h : ∀ a, q a = true → p a = true)
    (as : List α) : (as.filter fun a => !p a).countP q = 0 := by
  rw [List.countP_eq_zero]
  intro a ha hq
  have hkept := (List.mem_filter.1 ha).2
  rw [h a hq] at hkept
  cases hkept

def SourceEvent.isErased : SourceEvent → Bool
  | .data _ => false
  | .claim n => n ≠ 1
  | .fail _ => true

/-- An interruption is erased without making a read fail. -/
def SourceEvent.isBreak : SourceEvent → Bool
  | .data _ => false
  | .claim n => n ≠ 1
  | .fail f => !f.isInterruption

/-- What the event gives to the reads that do not fail, a claimed byte being no byte. -/
def SourceEvent.supply : SourceEvent → List (Option UInt8)
  | .data bytes => bytes.map some
  | .claim n => if n = 1 then [none] else []
  | .fail _ => []

theorem SourceEvent.isErased_of_isBreak {e : SourceEvent} (h : e.isBreak = true) :
    e.isErased = true := by
  cases e with
  | data => cases h
  | claim => exact h
  | fail => rfl

theorem SourceEvent.supply_of_isErased {e : SourceEvent} (h : e.isErased = true) :
    e.supply = [] := by
  cases e with
  | data => cases h
  | claim n => exact if_neg (of_decide_eq_true h)
  | fail => rfl

namespace Source

def erased (s : Source) : Source :=
  { s with events := s.events.filter fun e => !e.isErased }

def erasedCount (s : Source) : Nat :=
  s.events.countP SourceEvent.isErased

def breaks (s : Source) : Nat :=
  s.events.countP SourceEvent.isBreak

def supply (s : Source) : List (Option UInt8) :=
  s.events.flatMap SourceEvent.supply

theorem breaks_le_erasedCount (s : Source) : s.breaks ≤ s.erasedCount :=
  List.countP_mono_left fun _ _ => SourceEvent.isErased_of_isBreak

theorem breaks_erased (s : Source) : s.erased.breaks = 0 :=
  countP_filter_not (fun _ => SourceEvent.isErased_of_isBreak) s.events

theorem supply_erased (s : Source) : s.erased.supply = s.supply :=
  flatMap_filter_not (fun _ => SourceEvent.supply_of_isErased) s.events

theorem left_eq_countP (s : Source) : s.left = s.supply.countP Option.isSome := by
  have hfold (events : List SourceEvent) (n : Nat) :
      events.foldl (fun n e => n + e.bytes.length) n =
        n + (events.flatMap SourceEvent.supply).countP Option.isSome := by
    induction events generalizing n with
    | nil => rfl
    | cons e rest ih =>
        have he : e.supply.countP Option.isSome = e.bytes.length := by
          cases e with
          | data bytes => simp [SourceEvent.supply, SourceEvent.bytes, List.countP_map]
          | claim n => by_cases h : n = 1 <;> simp [SourceEvent.supply, SourceEvent.bytes, h]
          | fail => rfl
        rw [List.foldl_cons, ih, List.flatMap_cons, List.countP_append, he, Nat.add_assoc]
  rw [left, hfold, Nat.zero_add, supply]

inductive Reads (s : Source) : Except TransferError UInt8 → Source → Prop
  | given {s' : Source} {b : Option UInt8} (hs : s.supply = b :: s'.supply)
      (hb : s'.breaks = s.breaks) : Reads s (.ok (b.getD 0)) s'
  | exhausted {s' : Source} (hs : s.supply = []) (hs' : s'.supply = [])
      (hb : s'.breaks = s.breaks) : Reads s (.error ⟨.read, .count 0⟩) s'
  | broken {s' : Source} {e : TransferError} (hs : s'.supply = s.supply)
      (hb : s.breaks = s'.breaks + 1) : Reads s (.error e) s'

theorem Reads.congr {s t s' : Source} {r : Except TransferError UInt8} (h : t.Reads r s')
    (hs : s.supply = t.supply) (hb : s.breaks = t.breaks) : s.Reads r s' := by
  cases h with
  | given hs' hb' => exact .given (hs.trans hs') (hb'.trans hb.symm)
  | exhausted hs' hs'' hb' => exact .exhausted (hs.trans hs') hs'' (hb'.trans hb.symm)
  | broken hs' hb' => exact .broken (hs'.trans hs.symm) (hb.trans hb')

theorem reads {s s' : Source} {r : Except TransferError UInt8} (h : s.readByte = (r, s')) :
    s.Reads r s' := by
  obtain ⟨events, calls⟩ := s
  induction events generalizing calls with
  | nil =>
      obtain ⟨rfl, rfl⟩ := Prod.mk.inj h
      exact .exhausted rfl rfl rfl
  | cons e rest ih =>
      cases e with
      | data bytes =>
          cases bytes with
          | nil => exact (ih calls h).congr rfl rfl
          | cons b bytes =>
              obtain ⟨rfl, rfl⟩ := Prod.mk.inj h
              exact .given (b := some b) rfl rfl
      | claim n =>
          by_cases hn : n = 1
          · subst hn
            obtain ⟨rfl, rfl⟩ := Prod.mk.inj h
            exact .given (b := none) rfl rfl
          · have hread : readByte ⟨.claim n :: rest, calls⟩ =
                (.error ⟨.read, .count n⟩, ⟨rest, calls + 1⟩) := by
              match n with
              | 0 => rfl
              | 1 => exact absurd rfl hn
              | _ + 2 => rfl
            obtain ⟨rfl, rfl⟩ := Prod.mk.inj (hread.symm.trans h)
            refine .broken ?_ ?_
            · simp [supply, SourceEvent.supply, hn]
            · simp [breaks, SourceEvent.isBreak, hn]
      | fail f =>
          by_cases hf : f.isInterruption = true
          · have hskip : readByte ⟨.fail f :: rest, calls⟩ = readByte ⟨rest, calls + 1⟩ := by
              simp [readByte, reply, replyAfter, hf]
            rw [hskip] at h
            refine (ih (calls + 1) h).congr rfl ?_
            simp [breaks, SourceEvent.isBreak, hf]
          · have hread : readByte ⟨.fail f :: rest, calls⟩ =
                (.error ⟨.read, .fault f⟩, ⟨rest, calls + 1⟩) := by
              simp [readByte, reply, replyAfter, hf]
            obtain ⟨rfl, rfl⟩ := Prod.mk.inj (hread.symm.trans h)
            refine .broken rfl ?_
            simp [breaks, SourceEvent.isBreak, hf]

structure Mirrors (s s₀ : Source) : Prop where
  supply : s₀.supply = s.supply
  unbroken : s₀.breaks = 0

theorem mirrors_erased (s : Source) : s.Mirrors s.erased :=
  ⟨s.supply_erased, s.breaks_erased⟩

theorem Mirrors.left_eq {s s₀ : Source} (h : s.Mirrors s₀) : s.left = s₀.left := by
  rw [left_eq_countP, left_eq_countP, h.supply]

theorem Mirrors.read {s s₀ s₀' : Source} {r : Except TransferError UInt8} (h : s.Mirrors s₀)
    (hr : s₀.readByte = (r, s₀')) :
    (∃ s', s.readByte = (r, s') ∧ s'.Mirrors s₀' ∧ s'.breaks = s.breaks) ∨
      ∃ e s', s.readByte = (.error e, s') ∧ s'.Mirrors s₀ ∧ s.breaks = s'.breaks + 1 := by
  obtain ⟨hs, hu⟩ := h
  cases hread : s.readByte with
  | mk r' s' =>
      have hreads₀ := reads hr
      cases reads hread with
      | @given _ b hsupply hb =>
          rw [hsupply] at hs
          cases hreads₀ with
          | given hsupply₀ hb₀ =>
              obtain ⟨rfl, hrest⟩ := List.cons.inj (hsupply₀.symm.trans hs)
              exact .inl ⟨s', rfl, ⟨hrest, hb₀.trans hu⟩, hb⟩
          | exhausted hsupply₀ =>
              rw [hsupply₀] at hs
              cases hs
          | broken _ hb₀ => omega
      | exhausted hsupply hsupply' hb =>
          rw [hsupply] at hs
          cases hreads₀ with
          | given hsupply₀ =>
              rw [hsupply₀] at hs
              cases hs
          | exhausted _ hsupply₀ hb₀ =>
              exact .inl ⟨s', rfl, ⟨hsupply₀.trans hsupply'.symm, hb₀.trans hu⟩, hb⟩
          | broken _ hb₀ => omega
      | broken hsupply hb => exact .inr ⟨_, s', rfl, ⟨hs.trans hsupply.symm, hu⟩, hb⟩

end Source

def SinkEvent.isErased : SinkEvent → Bool
  | .accept => false
  | .claim n => n ≠ 1
  | .fail _ => true

def SinkEvent.isBreak : SinkEvent → Bool
  | .accept => false
  | .claim n => n ≠ 1
  | .fail f => !f.isInterruption

def SinkEvent.verdicts : SinkEvent → List Bool
  | .accept => [true]
  | .claim n => if n = 1 then [false] else []
  | .fail _ => []

theorem SinkEvent.isErased_of_isBreak {e : SinkEvent} (h : e.isBreak = true) :
    e.isErased = true := by
  cases e with
  | accept => cases h
  | claim => exact h
  | fail => rfl

theorem SinkEvent.verdicts_of_isErased {e : SinkEvent} (h : e.isErased = true) :
    e.verdicts = [] := by
  cases e with
  | accept => cases h
  | claim n => exact if_neg (of_decide_eq_true h)
  | fail => rfl

namespace Sink

def erased (s : Sink) : Sink :=
  { s with events := s.events.filter fun e => !e.isErased }

def erasedCount (s : Sink) : Nat :=
  s.events.countP SinkEvent.isErased

def breaks (s : Sink) : Nat :=
  s.events.countP SinkEvent.isBreak

def verdicts (s : Sink) : List Bool :=
  s.events.flatMap SinkEvent.verdicts

theorem breaks_le_erasedCount (s : Sink) : s.breaks ≤ s.erasedCount :=
  List.countP_mono_left fun _ _ => SinkEvent.isErased_of_isBreak

theorem breaks_erased (s : Sink) : s.erased.breaks = 0 :=
  countP_filter_not (fun _ => SinkEvent.isErased_of_isBreak) s.events

theorem verdicts_erased (s : Sink) : s.erased.verdicts = s.verdicts :=
  flatMap_filter_not (fun _ => SinkEvent.verdicts_of_isErased) s.events

inductive Writes (s : Sink) (value : UInt8) : Except TransferError Unit → Sink → Prop
  | passed {s' : Sink} (hv : s'.verdicts = s.verdicts.tail)
      (hs : s'.stored = if s.verdicts.headD true then s.stored.push value else s.stored)
      (hb : s'.breaks = s.breaks) : Writes s value (.ok ()) s'
  | broken {s' : Sink} {e : TransferError} (hv : s'.verdicts = s.verdicts)
      (hs : s'.stored = s.stored) (hb : s.breaks = s'.breaks + 1) : Writes s value (.error e) s'

theorem Writes.congr {s t s' : Sink} {value : UInt8} {r : Except TransferError Unit}
    (h : t.Writes value r s') (hv : s.verdicts = t.verdicts) (hs : s.stored = t.stored)
    (hb : s.breaks = t.breaks) : s.Writes value r s' := by
  cases h with
  | passed hv' hs' hb' =>
      rw [← hv] at hv' hs'
      rw [← hs] at hs'
      exact .passed hv' hs' (hb'.trans hb.symm)
  | broken hv' hs' hb' => exact .broken (hv'.trans hv.symm) (hs'.trans hs.symm) (hb.trans hb')

theorem writes {s s' : Sink} {value : UInt8} {r : Except TransferError Unit}
    (h : s.writeByte value = (r, s')) : s.Writes value r s' := by
  obtain ⟨events, stored, calls⟩ := s
  induction events generalizing calls with
  | nil =>
      obtain ⟨rfl, rfl⟩ := Prod.mk.inj h
      exact .passed rfl rfl rfl
  | cons e rest ih =>
      cases e with
      | accept =>
          obtain ⟨rfl, rfl⟩ := Prod.mk.inj h
          exact .passed rfl rfl rfl
      | claim n =>
          by_cases hn : n = 1
          · subst hn
            obtain ⟨rfl, rfl⟩ := Prod.mk.inj h
            exact .passed rfl rfl rfl
          · have hwrite : writeByte ⟨.claim n :: rest, stored, calls⟩ value =
                (.error ⟨.write, .count n⟩, ⟨rest, stored, calls + 1⟩) := by
              match n with
              | 0 => rfl
              | 1 => exact absurd rfl hn
              | _ + 2 => rfl
            obtain ⟨rfl, rfl⟩ := Prod.mk.inj (hwrite.symm.trans h)
            refine .broken ?_ rfl ?_
            · simp [verdicts, SinkEvent.verdicts, hn]
            · simp [breaks, SinkEvent.isBreak, hn]
      | fail f =>
          by_cases hf : f.isInterruption = true
          · have hskip : writeByte ⟨.fail f :: rest, stored, calls⟩ value =
                writeByte ⟨rest, stored, calls + 1⟩ value := by
              simp [writeByte, receiptAfter, hf]
            rw [hskip] at h
            refine (ih (calls + 1) h).congr rfl rfl ?_
            simp [breaks, SinkEvent.isBreak, hf]
          · have hwrite : writeByte ⟨.fail f :: rest, stored, calls⟩ value =
                (.error ⟨.write, .fault f⟩, ⟨rest, stored, calls + 1⟩) := by
              simp [writeByte, receiptAfter, hf]
            obtain ⟨rfl, rfl⟩ := Prod.mk.inj (hwrite.symm.trans h)
            refine .broken rfl rfl ?_
            simp [breaks, SinkEvent.isBreak, hf]

structure Mirrors (s s₀ : Sink) : Prop where
  verdicts : s₀.verdicts = s.verdicts
  stored : s₀.stored = s.stored
  unbroken : s₀.breaks = 0

theorem mirrors_erased (s : Sink) : s.Mirrors s.erased :=
  ⟨s.verdicts_erased, rfl, s.breaks_erased⟩

theorem Mirrors.write {s s₀ s₀' : Sink} {value : UInt8} {r : Except TransferError Unit}
    (h : s.Mirrors s₀) (hw : s₀.writeByte value = (r, s₀')) :
    (∃ s', s.writeByte value = (r, s') ∧ s'.Mirrors s₀' ∧ s'.breaks = s.breaks) ∨
      ∃ e s', s.writeByte value = (.error e, s') ∧ s'.Mirrors s₀ ∧ s.breaks = s'.breaks + 1 := by
  obtain ⟨hv, hs, hu⟩ := h
  cases hwrite : s.writeByte value with
  | mk r' s' =>
      cases writes hwrite with
      | passed hv' hs' hb =>
          cases writes hw with
          | passed hv₀ hs₀ hb₀ =>
              refine .inl ⟨s', rfl, ⟨?_, ?_, hb₀.trans hu⟩, hb⟩
              · rw [hv₀, hv, hv']
              · rw [hs₀, hs, hv, hs']
          | broken _ _ hb₀ => omega
      | broken hv' hs' hb => exact .inr ⟨_, s', rfl, ⟨hv.trans hv'.symm, hs.trans hs'.symm, hu⟩, hb⟩

end Sink

end TapeLang
